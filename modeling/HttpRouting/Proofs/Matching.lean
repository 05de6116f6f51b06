import HttpRouting.Proofs.Mounting
import HttpRouting.Proofs.Tables
import HttpRouting.Proofs.Templates

/-!
Which route a path leads to. Main statement: after mounting a router, a path matches just if it
fits the segments of an entry that has been compiled, and it then leads to the preferred one.
-/

namespace HttpRouting

variable {σ : Type}

def DispatchConfig.reading (c : DispatchConfig) (path : Bytes) : Bytes :=
  if c.ignoreTrailingSlash = false then path
  else if path = [] then [Byte.slash]
  else if 1 < path.length ∧ path.getLast? = some Byte.slash then path.dropLast
  else path

theorem trimTrailingSlash_eq_reading (c : DispatchConfig) (path : Bytes) :
    (if c.ignoreTrailingSlash then Bytes.trimTrailingSlash path else path) = c.reading path := by
  rw [DispatchConfig.reading]
  cases c.ignoreTrailingSlash with
  | false => rfl
  | true =>
    match path with
    | [] => rfl
    | [b] => simp [Bytes.trimTrailingSlash]
    | b :: b' :: rest => simp [Bytes.trimTrailingSlash]

/-- The entry is the last one of the preferred shape among those that fit the parts. -/
structure Wins (entries : List (Entry σ)) (parts : List Bytes) (e : Entry σ) : Prop where
  fits : Fits e.segments parts
  preferred : ∀ e' ∈ entries, Fits e'.segments parts →
    shape e.segments = shape e'.segments ∨ Preferred (shape e.segments) (shape e'.segments)
  last : ∃ before after, entries = before ++ e :: after ∧
    ∀ e' ∈ after, shape e'.segments ≠ shape e.segments

namespace Dispatcher

variable {d : Dispatcher σ} {routes : List (CompiledRoute σ)}

theorem match?_eq (d : Dispatcher σ) (path : Bytes) :
    d.match? path =
      (d.matcher.findParts (splitPath (d.config.reading path))).bind fun hit =>
        (d.routes.find? hit.1).map fun route =>
          ⟨hit.1, bindParams route.entry.segments hit.2⟩ := by
  rw [match?, trimTrailingSlash_eq_reading]
  apply congrArg
  funext ⟨key, captured⟩
  change (d.routes.find? key).bind _ = (d.routes.find? key).map _
  cases d.routes.find? key <;> rfl

theorem Holds.routed (h : d.Holds routes) {segments : List Segment} {key : Bytes}
    (matched : d.matcher.get? segments = some key) :
    ∃ route ∈ routes, route.entry.urlPath = key ∧ d.routes.find? key = some route := by
  rw [h.matched] at matched
  obtain ⟨r, hr, same⟩ := List.mem_map.mp (mem_of_latest matched)
  obtain ⟨-, rfl⟩ := Prod.mk.inj same
  exact h.find?_of_mem hr

theorem Holds.match?_eq_none_iff (h : d.Holds routes) (path : Bytes) :
    d.match? path = none ↔
      [] ∈ splitPath (d.config.reading path) ∨
        ∀ r ∈ routes, ¬ Fits r.entry.segments (splitPath (d.config.reading path)) := by
  rw [match?_eq, Option.bind_eq_none_iff]
  have some_route : (∀ hit, d.matcher.findParts (splitPath (d.config.reading path)) = some hit →
      (d.routes.find? hit.1).map (fun route =>
        (⟨hit.1, bindParams route.entry.segments hit.2⟩ : RouteMatch)) = none) ↔
      d.matcher.findParts (splitPath (d.config.reading path)) = none := by
    constructor
    · intro unrouted
      rw [Option.eq_none_iff_forall_ne_some]
      intro hit found
      obtain ⟨-, segments, best, -⟩ := SegmentTrie.findParts_eq_some found
      obtain ⟨route, -, -, routed⟩ := h.routed best.stored
      have missing := unrouted hit found
      rw [routed] at missing
      cases missing
    · intro none hit found
      rw [none] at found
      cases found
  rw [some_route, SegmentTrie.findParts_eq_none_iff]
  apply or_congr Iff.rfl
  constructor
  · intro unstored r hr fits
    have none := unstored r.entry.segments fits
    rw [h.matched, latest_eq_none_iff] at none
    exact none _ (List.mem_map_of_mem hr) rfl
  · intro unfit segments fits
    rw [h.matched, latest_eq_none_iff]
    rintro _ he same
    obtain ⟨r, hr, rfl⟩ := List.mem_map.mp he
    exact unfit r hr (fits_congr same.symm fits)

theorem Holds.match?_eq_some (h : d.Holds routes)
    (aligned : ∀ r ∈ routes, ∀ r' ∈ routes, r.entry.urlPath = r'.entry.urlPath →
      r.entry.segments = r'.entry.segments)
    {path : Bytes} {m : RouteMatch} (found : d.match? path = some m) :
    ∃ r ∈ routes, Wins (routes.map (·.entry)) (splitPath (d.config.reading path)) r.entry ∧
      m.key = r.entry.urlPath ∧
      m.params =
        Dictionary.ofList (bindings r.entry.segments (splitPath (d.config.reading path))) := by
  rw [match?_eq, Option.bind_eq_some_iff] at found
  obtain ⟨⟨key, captured⟩, hit, found⟩ := found
  obtain ⟨route, routed, rfl⟩ := Option.map_eq_some_iff.mp found
  obtain ⟨-, segments, best, rfl⟩ := SegmentTrie.findParts_eq_some hit
  obtain ⟨route', hr', keyed, routed'⟩ := h.routed best.stored
  cases Option.some.inj (routed.symm.trans routed')
  have stored := best.stored
  rw [h.matched] at stored
  obtain ⟨before, r, after, rfl, same, rfl, last⟩ := latest_map_eq_some_iff.mp stored
  have hr : r ∈ before ++ r :: after := List.mem_append_right _ List.mem_cons_self
  have fits := fits_congr same.symm best.fits
  refine ⟨r, hr, ⟨fits, ?_, ?_⟩, rfl, ?_⟩
  · intro e he fits'
    obtain ⟨r', hr', rfl⟩ := List.mem_map.mp he
    rw [same]
    apply best.least r'.entry.segments fits'
    rw [h.matched, latest_isSome_iff]
    exact ⟨_, List.mem_map_of_mem hr', rfl⟩
  · refine ⟨before.map (·.entry), after.map (·.entry), by rw [List.map_append, List.map_cons], ?_⟩
    intro e he
    obtain ⟨r', hr', rfl⟩ := List.mem_map.mp he
    rw [same]
    exact last r' hr'
  · rw [aligned route hr' r hr keyed, captured_congr same.symm, bindParams_eq fits.1]

end Dispatcher

theorem segments_of_spell_eq_nil {line : List (Router σ)}
    (parsed : ∀ r ∈ line, ∃ source, Template.parse source = .ok r.template)
    (blank : spell line = []) : line.flatMap (·.template.segments) = [] := by
  rw [spell, List.flatMap_eq_nil_iff] at blank
  rw [List.flatMap_eq_nil_iff]
  intro r hr
  obtain ⟨source, parse⟩ := parsed r hr
  exact Template.segments_of_urlPath_eq_nil parse (blank r hr)

section

open Forest

variable {calls : List (Call σ)} {f : Forest σ} {id : Nat} {root : Router σ} {children : Forest σ}

theorem mem_entriesOf (hf : f.Reached calls) (found : f.tree? id = some (root, children))
    {e : Entry σ} (he : e ∈ Dispatcher.entriesOf root) :
    (root.handlers.isEmpty = false ∧ e = root.ownEntry) ∨
      ∃ line ∈ children.lines, e = Entry.along (root :: line) ∧
        root.routes.find? (spell line) = some e := by
  rw [Dispatcher.entriesOf, List.mem_append] at he
  rcases he with own | inner
  · split at own
    · cases own
    · rename_i served
      exact .inl ⟨Bool.eq_false_iff.mpr served, List.mem_singleton.mp own⟩
  · obtain ⟨⟨k, e⟩, stored, rfl⟩ := List.mem_map.mp inner
    have bound := Dictionary.mem_entries_iff.mp stored
    obtain ⟨line, hl, rfl, same⟩ := (current_tree hf.current found).1.fresh k e bound
    exact .inr ⟨line, hl, same, bound⟩

theorem segments_of_urlPath (hf : f.Reached calls) (found : f.tree? id = some (root, children)) :
    ∀ e ∈ Dispatcher.entriesOf root, ∀ e' ∈ Dispatcher.entriesOf root,
      e.urlPath = e'.urlPath → e.segments = e'.segments := by
  have own {line : List (Router σ)} (hl : line ∈ children.lines)
      (same : root.ownEntry.urlPath = (Entry.along (root :: line)).urlPath) :
      root.ownEntry.segments = (Entry.along (root :: line)).segments := by
    change root.template.urlPath = root.template.urlPath ++ spell line at same
    have level : root.template.urlPath ++ spell line = root.template.urlPath ++ [] := by
      rw [← same, List.append_nil]
    have blank : spell line = [] := List.append_cancel_left level
    have none := segments_of_spell_eq_nil (parsed_of_line hf found hl) blank
    change root.template.segments = root.template.segments ++ line.flatMap (·.template.segments)
    rw [none, List.append_nil]
  intro e he e' he' same
  rcases mem_entriesOf hf found he with ⟨-, rfl⟩ | ⟨line, hl, rfl, bound⟩ <;>
    rcases mem_entriesOf hf found he' with ⟨-, rfl⟩ | ⟨line', hl', rfl, bound'⟩
  · rfl
  · exact own hl' same
  · exact (own hl same.symm).symm
  · have key : spell line = spell line' := List.append_cancel_left same
    rw [key, bound'] at bound
    rw [Option.some.inj bound]

theorem aligned_mountedRoutes (hf : f.Reached calls) (found : f.tree? id = some (root, children))
    (d : Dispatcher σ) (w : World σ) :
    ∀ r ∈ d.mountedRoutes root w, ∀ r' ∈ d.mountedRoutes root w,
      r.entry.urlPath = r'.entry.urlPath → r.entry.segments = r'.entry.segments := by
  have listed := (d.mountedEntries_prefix root w).subset
  intro r hr r' hr'
  exact segments_of_urlPath hf found _ (listed (List.mem_map_of_mem hr)) _
    (listed (List.mem_map_of_mem hr'))

end

theorem match?_wins {calls : List (Call σ)} {f : Forest σ} (hf : f.Reached calls) {id : Nat}
    {root : Router σ} (found : f.find? id = some root) (d : Dispatcher σ) (w : World σ)
    (path : Bytes) :
    (d.mountedEntries root w <+: Dispatcher.entriesOf root ∧
      ((d.mount root w).fault = none → d.mountedEntries root w = Dispatcher.entriesOf root)) ∧
    ((d.mount root w).dispatcher.match? path = none ↔
      [] ∈ splitPath (d.config.reading path) ∨
        ∀ e ∈ d.mountedEntries root w, ¬ Fits e.segments (splitPath (d.config.reading path))) ∧
    (∀ m, (d.mount root w).dispatcher.match? path = some m →
      ∃ e, Wins (d.mountedEntries root w) (splitPath (d.config.reading path)) e ∧
        m.key = e.urlPath ∧
        ∀ name part, m.params.find? name = some part ↔
          ∃ i : Nat, e.segments[i]? = some (.param name) ∧
            (splitPath (d.config.reading path))[i]? = some part ∧
            ∀ j : Nat, i < j → e.segments[j]? ≠ some (.param name)) ∧
    ∀ parts, CutInto (d.config.reading path) parts →
      parts = splitPath (d.config.reading path) := by
  obtain ⟨⟨root, children⟩, tree, rfl⟩ := Option.map_eq_some_iff.mp found
  have holds := d.holds_mount root w
  have config : (d.mount root w).dispatcher.config = d.config := d.config_mount root w
  have aligned := aligned_mountedRoutes hf tree d w
  refine ⟨⟨d.mountedEntries_prefix root w, Dispatcher.mountedEntries_eq⟩, ?_, ?_,
    fun parts cut => (cutInto_iff.mp cut).2⟩
  · rw [holds.match?_eq_none_iff, config, Dispatcher.mountedEntries, List.forall_mem_map]
  · intro m matched
    obtain ⟨r, -, wins, key, params⟩ := holds.match?_eq_some aligned matched
    rw [config] at wins params
    refine ⟨r.entry, wins, key, fun name part => ?_⟩
    rw [params, Dictionary.find?_ofList, latest_bindings_eq_some_iff wins.fits.1]

def crossing : List (Call Unit) :=
  [.path 0 [], .path 1 (ascii "/<x>/b"), .path 2 (ascii "/a/<y>"),
    .handle 1 .get (some (plainHandler 0)), .handle 2 .get (some (plainHandler 1)),
    .nest 0 [some 1, some 2]]

theorem match?_wins_crossing :
    ∃ root m e, (Forest.nil.after crossing).find? 0 = some root ∧
      (({ sink := none } : Dispatcher Unit).mount root { state := () }).dispatcher.match?
        (ascii "/a/b/") = some m ∧
      Wins (({ sink := none } : Dispatcher Unit).mountedEntries root { state := () })
        [ascii "a", ascii "b"] e ∧
      m.key = e.urlPath ∧ m.key = ascii "/a/<y>" := by
  have reached : Forest.Reached crossing (Forest.nil.after crossing) :=
    Forest.Reached.start.after (by decide +kernel)
  have key : ((Forest.nil.after crossing).find? 0).bind (fun root =>
      ((({ sink := none } : Dispatcher Unit).mount root { state := () }).dispatcher.match?
        (ascii "/a/b/")).map (·.key)) = some (ascii "/a/<y>") := by decide +kernel
  obtain ⟨root, found, key⟩ := Option.bind_eq_some_iff.mp key
  obtain ⟨m, matched, key⟩ := Option.map_eq_some_iff.mp key
  obtain ⟨e, wins, same, -⟩ :=
    (match?_wins reached found { sink := none } { state := () } (ascii "/a/b/")).2.2.1 m matched
  exact ⟨root, m, e, found, matched, wins, same, key⟩

end HttpRouting
