import HttpRouting.Proofs.LogGrowth
import HttpRouting.Proofs.WellFormed
import HttpRouting.Proofs.Wrapping
import Mathlib.Data.Fintype.EquivFin

/-!
Which routes can be reached. Main statement: each route that is mounted has a path that leads to it,
unless a later one has its shape; then no path does, and mounting has logged a warning.
-/

namespace HttpRouting

open Byte Bytes Forest

variable {σ : Type}

def fill (part : Bytes) (segments : List Segment) : List Bytes :=
  segments.map fun
    | .literal text => text
    | .param _ => part

section

variable {part : Bytes} {segments segments' : List Segment}

theorem fits_fill (part : Bytes) (segments : List Segment) :
    Fits segments (fill part segments) := by
  induction segments with
  | nil => exact fits_nil
  | cons segment segments ih =>
    refine fits_cons.mpr ⟨?_, ih⟩
    rintro text rfl
    rfl

theorem mem_fill {text : Bytes} (h : text ∈ fill part segments) :
    text = part ∨ .literal text ∈ segments := by
  obtain ⟨segment, listed, rfl⟩ := List.mem_map.mp h
  cases segment with
  | literal text => exact .inr listed
  | param name => exact .inl rfl

theorem preferred_of_fits_fill (absent : .literal part ∉ segments')
    (fits : Fits segments' (fill part segments)) :
    shape segments = shape segments' ∨ Preferred (shape segments) (shape segments') := by
  induction segments generalizing segments' with
  | nil => rw [eq_nil_of_fits fits]; exact .inl rfl
  | cons segment segments ih =>
    cases segments' with
    | nil => cases fits.1
    | cons segment' segments' =>
      obtain ⟨first, others⟩ := fits_cons.mp fits
      have below := ih (mt (List.mem_cons_of_mem _) absent) others
      have deeper (same : segment.shape = segment'.shape) :
          shape (segment :: segments) = shape (segment' :: segments') ∨
            Preferred (shape (segment :: segments)) (shape (segment' :: segments')) := by
        change segment.shape :: _ = segment'.shape :: _ ∨
          Preferred (segment.shape :: _) (segment'.shape :: _)
        rw [same]
        exact below.imp (congrArg _) fun preferred => preferred.cons _
      cases segment' with
      | literal text' =>
        have same := first text' rfl
        cases segment with
        | literal text => exact deeper (congrArg some same)
        | param name => exact absurd List.mem_cons_self (same ▸ absent)
      | param name' =>
        cases segment with
        | literal text => exact .inr ⟨[], text, shape segments, shape segments', rfl, rfl⟩
        | param name => exact deeper rfl

end

theorem exists_fresh_part (texts : List Bytes) :
    ∃ part : Bytes, part ≠ [] ∧ slash ∉ part ∧ part ∉ texts := by
  obtain ⟨n, fresh⟩ := Infinite.exists_notMem_finset (0 :: texts.map List.length).toFinset
  rw [List.mem_toFinset, List.mem_cons, not_or] at fresh
  refine ⟨List.replicate n dot, ?_, ?_, fun inside => fresh.2 ?_⟩
  · simpa using fresh.1
  · simp [List.mem_replicate, slash, dot]
  · exact List.mem_map.mpr ⟨_, inside, List.length_replicate⟩

def pathOf (parts : List Bytes) : Bytes := slash :: [slash].intercalate parts

section

variable {parts : List Bytes}

theorem splitPath_pathOf (full : [] ∉ parts) (plain : ∀ part ∈ parts, slash ∉ part) :
    splitPath (pathOf parts) = parts :=
  splitPath_slash_join (fun bare => full (bare ▸ List.mem_singleton_self [])) plain

theorem reading_pathOf (full : [] ∉ parts) (plain : ∀ part ∈ parts, slash ∉ part)
    (c : DispatchConfig) : c.reading (pathOf parts) = pathOf parts := by
  -- A slash at the end would make for an empty part.
  rw [DispatchConfig.reading]
  split
  · rfl
  · rw [pathOf, if_neg (List.cons_ne_nil _ _), if_neg]
    rintro ⟨long, last⟩
    obtain ⟨start, ends⟩ := List.getLast?_eq_some_iff.mp last
    cases start with
    | nil =>
      rw [ends] at long
      exact absurd long (by decide)
    | cons first start =>
      have text : [slash].intercalate parts = start ++ [slash] := (List.cons.inj ends).2
      have some_part : parts ≠ [] := by
        rintro rfl
        exact absurd text (by simp)
      have split := List.splitOn_intercalate slash plain some_part
      have cut : (start ++ [slash]).splitOn slash = start.splitOn slash ++ [[]] :=
        List.splitOnP_append_cons start [] (beq_self_eq_true slash)
      rw [text, cut] at split
      exact full (split ▸ List.mem_append_right _ (List.mem_singleton_self []))

end

namespace Dispatcher

def shadowing (key : Bytes) : Bytes :=
  ascii "[Dispatch] Route '" ++ key ++ ascii "' shadows an earlier route with the same shape"

theorem notices_place {d : Dispatcher σ} {r : CompiledRoute σ}
    (new : d.routes.find? r.entry.urlPath = none)
    (taken : (d.matcher.get? r.entry.segments).isSome) :
    (d.place r).notices = [⟨.warning, shadowing r.entry.urlPath⟩] := by
  rw [place, new]
  dsimp only
  rw [if_pos taken]
  rfl

theorem mountEntries_of_shape {d : Dispatcher σ} {before after : List (Entry σ)} {e : Entry σ}
    {w : World σ} (mounted : (d.cleared.mountEntries (before ++ e :: after) w).fault = none)
    (new : ∀ x ∈ before, x.urlPath ≠ e.urlPath)
    (taken : ∃ x ∈ before, shape x.segments = shape e.segments) :
    ∃ route v, e.compile (d.cleared.mountEntries before w).world = (.ok route, v) ∧
      d.cleared.mountEntries (before ++ e :: after) w =
        ((d.cleared.mountEntries before w).dispatcher.place route).value.mountEntries after
          (v.log .warning (shadowing e.urlPath)) := by
  have first := fault_of_mountEntries_append mounted
  have holds := d.holds_mountEntries before w
  have entries := compiled_all first
  rw [mountEntries_append first, mountEntries] at mounted ⊢
  rcases compiled : e.compile (d.cleared.mountEntries before w).world with ⟨_ | route, v⟩
  · rw [compiled] at mounted
    cases mounted
  · obtain rfl := Entry.entry_of_compile compiled
    refine ⟨route, v, rfl, ?_⟩
    have unbound : (d.cleared.mountEntries before w).dispatcher.routes.find? route.entry.urlPath =
        none := by
      rw [holds.found, latest_eq_none_iff]
      rintro _ listed
      obtain ⟨r, hr, rfl⟩ := List.mem_map.mp listed
      exact new r.entry (entries ▸ List.mem_map_of_mem hr)
    have bound : ((d.cleared.mountEntries before w).dispatcher.matcher.get?
        route.entry.segments).isSome := by
      obtain ⟨x, hx, same⟩ := taken
      rw [← entries] at hx
      obtain ⟨r, hr, rfl⟩ := List.mem_map.mp hx
      rw [holds.matched, latest_isSome_iff]
      exact ⟨_, List.mem_map_of_mem hr, same⟩
    dsimp only
    rw [notices_place unbound bound]
    rfl

end Dispatcher

section

variable {calls : List (Call σ)} {f : Forest σ} {id : Nat} {root : Router σ} {children : Forest σ}

open Dispatcher

theorem literal_of_mem_entriesOf (hf : f.Reached calls)
    (found : f.tree? id = some (root, children)) {e : Entry σ} (he : e ∈ entriesOf root)
    {text : Bytes} (listed : .literal text ∈ e.segments) : text ≠ [] ∧ slash ∉ text := by
  have of_template {r : Router σ} (parsed : ∃ source, Template.parse source = .ok r.template)
      (listed : .literal text ∈ r.template.segments) : text ≠ [] ∧ slash ∉ text := by
    obtain ⟨source, parsed⟩ := parsed
    obtain ⟨full, plain, -⟩ := Template.literal_of_parse parsed listed
    exact ⟨full, plain⟩
  have own : ∃ source, Template.parse source = .ok root.template :=
    hf.parsed root.bare (bare_mem_routers found)
  rcases mem_entriesOf hf found he with ⟨-, rfl⟩ | ⟨line, hl, rfl, -⟩
  · exact of_template own listed
  · obtain ⟨r, hr, inside⟩ := List.mem_flatMap.mp listed
    rcases List.mem_cons.mp hr with rfl | hr
    · exact of_template own inside
    · exact of_template (parsed_of_line hf found hl r hr) inside

theorem before_eq_of_same_key (hf : f.Reached calls) (found : f.tree? id = some (root, children))
    {before after : List (Entry σ)} {e : Entry σ} (split : entriesOf root = before ++ e :: after)
    {x : Entry σ} (hx : x ∈ before) (same : x.urlPath = e.urlPath) : before = [x] := by
  -- Only the entry for the empty key can repeat a key. It comes first, after that of the
  -- router itself.
  have listed := (current_tree hf.current found).1.offers_eq
  have unlike {entries before : List (Entry σ)} (split : entries = before ++ e :: after)
      (sorted : (entries.map fun e => (e.urlPath, e)).Pairwise fun a b => compare a.1 b.1 = .lt) :
      ∀ y ∈ before, y.urlPath ≠ e.urlPath := by
    rw [split, List.pairwise_map, List.pairwise_append] at sorted
    intro y hy level
    have lt := sorted.2.2 y hy e List.mem_cons_self
    rw [level, Std.ReflOrd.compare_self] at lt
    cases lt
  rcases root.offers_cases with sorted | ⟨inner, rest, two, sorted⟩
  · rw [listed] at sorted
    exact absurd same (unlike split sorted x hx)
  · cases before with
    | nil => cases hx
    | cons y before =>
      rw [listed, split, List.cons_append, List.map_cons, List.cons.injEq] at two
      obtain ⟨first, others⟩ := two
      rw [← others] at sorted
      have apart := unlike rfl sorted
      rcases List.mem_cons.mp hx with rfl | hx
      · cases before with
        | nil => rfl
        | cons z before =>
          have level : z.urlPath = x.urlPath := (congrArg Prod.fst (List.cons.inj others).1).trans
            (congrArg Prod.fst first).symm
          exact absurd (level.trans same) (apart z List.mem_cons_self)
      · exact absurd same (apart x hx)

structure Overtakes (root : Router σ) (key : Bytes) (before : List (Entry σ)) (e : Entry σ) :
    Prop where
  placed : ∃ after, entriesOf root = before ++ e :: after
  other : e.urlPath ≠ key
  alike : ∃ x ∈ before, x.urlPath = key ∧ shape x.segments = shape e.segments

variable {d : Dispatcher σ} {w : World σ}

theorem exists_own_parts (hf : f.Reached calls) (found : f.tree? id = some (root, children))
    {e : Entry σ} (he : e ∈ entriesOf root) :
    ∃ parts, [] ∉ parts ∧ (∀ part ∈ parts, slash ∉ part) ∧ Fits e.segments parts ∧
      ∀ x ∈ entriesOf root, Fits x.segments parts →
        shape e.segments = shape x.segments ∨ Preferred (shape e.segments) (shape x.segments) := by
  obtain ⟨part, nonempty, slashless, fresh⟩ :=
    exists_fresh_part ((entriesOf root).flatMap fun e => fill [] e.segments)
  refine ⟨fill part e.segments, ?_, ?_, fits_fill part e.segments, ?_⟩
  · intro inside
    rcases mem_fill inside with empty | listed
    · exact nonempty empty.symm
    · exact (literal_of_mem_entriesOf hf found he listed).1 rfl
  · intro text inside
    rcases mem_fill inside with rfl | listed
    · exact slashless
    · exact (literal_of_mem_entriesOf hf found he listed).2
  · intro x hx
    apply preferred_of_fits_fill
    intro listed
    exact fresh (List.mem_flatMap.mpr ⟨x, hx, List.mem_map.mpr ⟨_, listed, rfl⟩⟩)

theorem exists_path_of_free (hf : f.Reached calls) (found : f.tree? id = some (root, children))
    (mounted : (d.mount root w).fault = none) {e : Entry σ} (he : e ∈ entriesOf root)
    (free : ∀ before later, ¬ Overtakes root e.urlPath before later) :
    ∃ path m, (d.mount root w).dispatcher.match? path = some m ∧ m.key = e.urlPath := by
  obtain ⟨parts, full, plain, fits, least⟩ := exists_own_parts hf found he
  have read : splitPath ((d.mount root w).dispatcher.config.reading (pathOf parts)) = parts := by
    rw [reading_pathOf full plain, splitPath_pathOf full plain]
  have holds := d.holds_mount root w
  have listed : (d.mountedRoutes root w).map (·.entry) = entriesOf root := mountedEntries_eq mounted
  have some_match : (d.mount root w).dispatcher.match? (pathOf parts) ≠ none := by
    rw [Ne, holds.match?_eq_none_iff, read]
    rintro (blank | unfit)
    · exact full blank
    · rw [← listed] at he
      obtain ⟨r, hr, rfl⟩ := List.mem_map.mp he
      exact unfit r hr fits
  obtain ⟨m, matched⟩ := Option.ne_none_iff_exists'.mp some_match
  obtain ⟨r, hr, wins, key, -⟩ := holds.match?_eq_some (aligned_mountedRoutes hf found d w) matched
  rw [read, listed] at wins
  have same : shape e.segments = shape r.entry.segments := by
    rcases wins.preferred e he fits with same | better
    · exact same.symm
    · have below := least r.entry (listed ▸ List.mem_map_of_mem hr) wins.fits
      exact below.resolve_right better.asymm
  refine ⟨_, m, matched, ?_⟩
  rw [key]
  by_contra other
  obtain ⟨before, after, split, last⟩ := wins.last
  rw [split, List.mem_append, List.mem_cons] at he
  rcases he with earlier | rfl | later
  · exact free before r.entry ⟨⟨after, split⟩, other, e, earlier, rfl, same⟩
  · exact other rfl
  · exact last e later same

theorem key_ne_of_overtaken (hf : f.Reached calls) (found : f.tree? id = some (root, children))
    (mounted : (d.mount root w).fault = none) {key : Bytes} {before : List (Entry σ)} {e : Entry σ}
    (h : Overtakes root key before e) {path : Bytes} {m : RouteMatch}
    (matched : (d.mount root w).dispatcher.match? path = some m) : m.key ≠ key := by
  rintro rfl
  obtain ⟨⟨after, placed⟩, other, x, hx, keyed, alike⟩ := h
  have listed : (d.mountedRoutes root w).map (·.entry) = entriesOf root := mountedEntries_eq mounted
  obtain ⟨r, hr, wins, key, -⟩ := (d.holds_mount root w).match?_eq_some
    (aligned_mountedRoutes hf found d w) matched
  rw [listed] at wins
  obtain ⟨before', after', split, last⟩ := wins.last
  have segments : x.segments = r.entry.segments := by
    apply segments_of_urlPath hf found x _ r.entry _ (keyed.trans key)
    · rw [placed]
      exact List.mem_append_left _ hx
    · exact listed ▸ List.mem_map_of_mem hr
  rw [segments] at alike
  have unlike : r.entry ≠ e := fun same => other (same ▸ key.symm)
  rcases List.append_eq_append_iff.mp (placed.symm.trans split) with
    ⟨between, rfl, later⟩ | ⟨between, rfl, later⟩
  · -- The route with the key is found after `e`, though `x` has the key already.
    rcases List.cons_eq_append_iff.mp later with ⟨rfl, same⟩ | ⟨between, rfl, -⟩
    · exact unlike (List.cons.inj same).1
    · have single := before_eq_of_same_key hf found split (List.mem_append_left _ hx)
        (keyed.trans key)
      have short := congrArg List.length single
      have long := List.length_pos_of_mem hx
      rw [List.length_append, List.length_cons, List.length_singleton] at short
      omega
  · rcases List.cons_eq_append_iff.mp later with ⟨rfl, same⟩ | ⟨between, rfl, rfl⟩
    · exact unlike (List.cons.inj same).1.symm
    · exact last e (List.mem_append_right _ List.mem_cons_self) alike.symm

theorem warns_of_overtaken (hf : f.Reached calls) (found : f.tree? id = some (root, children))
    (mounted : (d.mount root w).fault = none) {key : Bytes} {before : List (Entry σ)} {e : Entry σ}
    (h : Overtakes root key before e) :
    ∃ route v after, entriesOf root = before ++ e :: after ∧
      e.compile (d.cleared.mountEntries before w).world = (.ok route, v) ∧
      d.cleared.mountEntries (entriesOf root) w =
        ((d.cleared.mountEntries before w).dispatcher.place route).value.mountEntries after
          (v.log .warning (shadowing e.urlPath)) := by
  obtain ⟨⟨after, placed⟩, other, x, hx, keyed, alike⟩ := h
  have new : ∀ y ∈ before, y.urlPath ≠ e.urlPath := by
    intro y hy same
    rw [before_eq_of_same_key hf found placed hy same, List.mem_singleton] at hx
    exact other (same.symm.trans (hx ▸ keyed))
  rw [fault_mount, placed] at mounted
  obtain ⟨route, v, compiled, continued⟩ := mountEntries_of_shape mounted new ⟨x, hx, alike⟩
  exact ⟨route, v, after, placed, compiled, placed ▸ continued⟩

theorem written_of_overtaken (hf : f.Reached calls) (found : f.tree? id = some (root, children))
    (mounted : (d.mount root w).fault = none) {key : Bytes} {before : List (Entry σ)} {e : Entry σ}
    (h : Overtakes root key before e)
    (discreet : ∀ x ∈ entriesOf root, ∀ m ∈ x.middlewares, m.Discreet)
    (direct : w.logger.buffer = none) (enabled : w.logger.enabled .warning) :
    ⟨.warning, shadowing e.urlPath⟩ ∈ (d.mount root w).world.logger.written := by
  obtain ⟨route, v, after, placed, compiled, continued⟩ :=
    warns_of_overtaken hf found mounted h
  rw [placed] at discreet
  obtain ⟨earlier, others⟩ := List.forall_mem_append.mp discreet
  obtain ⟨own, later⟩ := List.forall_mem_cons.mp others
  have upto := continues_mountEntries earlier d.cleared w
  have compiling := Entry.discreet_compile own (d.cleared.mountEntries before w).world
  rw [compiled] at compiling
  have start := upto.trans compiling
  have rest := continues_mountEntries later
    ((d.cleared.mountEntries before w).dispatcher.place route).value
    (v.log .warning (shadowing e.urlPath))
  rw [← continued] at rest
  apply (rest.trans (d.continues_mount root w)).written.subset
  exact Logger.mem_written_log (start.direct direct) ((start.enabled .warning).trans enabled) _

end

open Dispatcher

theorem route_reached_unless_overtaken {calls : List (Call σ)} {f : Forest σ}
    (hf : f.Reached calls) {id : Nat} {root : Router σ} (found : f.find? id = some root)
    (d : Dispatcher σ) (w : World σ) (mounted : (d.mount root w).fault = none) {key : Bytes}
    (stored : key ∈ (d.mount root w).dispatcher.routes.keys) :
    ((∀ before e, ¬ Overtakes root key before e) →
      ∃ path m, (d.mount root w).dispatcher.match? path = some m ∧ m.key = key) ∧
    ∀ before e, Overtakes root key before e →
      (∀ path m, (d.mount root w).dispatcher.match? path = some m → m.key ≠ key) ∧
      (∃ route v after, entriesOf root = before ++ e :: after ∧
        e.compile (d.cleared.mountEntries before w).world = (.ok route, v) ∧
        d.cleared.mountEntries (entriesOf root) w =
          ((d.cleared.mountEntries before w).dispatcher.place route).value.mountEntries after
            (v.log .warning (shadowing e.urlPath))) ∧
      ((∀ x ∈ entriesOf root, ∀ m ∈ x.middlewares, m.Discreet) → w.logger.buffer = none →
        w.logger.enabled .warning →
          ⟨.warning, shadowing e.urlPath⟩ ∈ (d.mount root w).world.logger.written) := by
  obtain ⟨⟨root, children⟩, tree, rfl⟩ := Option.map_eq_some_iff.mp found
  refine ⟨fun free => ?_, fun before e overtakes => ⟨fun path m matched => ?_, ?_, ?_⟩⟩
  · rw [Dictionary.mem_keys_iff, (d.holds_mount root w).found, latest_isSome_iff] at stored
    obtain ⟨_, listed, rfl⟩ := stored
    obtain ⟨r, hr, rfl⟩ := List.mem_map.mp listed
    have entries : (d.mountedRoutes root w).map (·.entry) = entriesOf root :=
      mountedEntries_eq mounted
    exact exists_path_of_free hf tree mounted (entries ▸ List.mem_map_of_mem hr) free
  · exact key_ne_of_overtaken hf tree mounted overtakes matched
  · exact warns_of_overtaken hf tree mounted overtakes
  · exact written_of_overtaken hf tree mounted overtakes

def twins : List (Call Unit) :=
  [.path 0 [], .path 1 (ascii "/a/<x>"), .path 2 (ascii "/a/<y>"),
    .handle 1 .get (some (plainHandler 0)), .handle 2 .get (some (plainHandler 1)),
    .nest 0 [some 1, some 2]]

def mountedTwins (root : Router Unit) : Mounted Unit :=
  ({ sink := none } : Dispatcher Unit).mount root { logger := { level := .warning }, state := () }

theorem route_reached_unless_overtaken_twins :
    ∃ root before e, (Forest.nil.after twins).find? 0 = some root ∧
      Overtakes root (ascii "/a/<x>") before e ∧
      (∀ path m, (mountedTwins root).dispatcher.match? path = some m → m.key ≠ ascii "/a/<x>") ∧
      ⟨.warning, shadowing (ascii "/a/<y>")⟩ ∈ (mountedTwins root).world.logger.written ∧
      ∃ path m, (mountedTwins root).dispatcher.match? path = some m ∧ m.key = ascii "/a/<y>" := by
  have reached : Forest.Reached twins (Forest.nil.after twins) :=
    Forest.Reached.start.after (by decide +kernel)
  have shown : ((Forest.nil.after twins).find? 0).any (fun root => decide (
      (mountedTwins root).fault = none ∧
      (mountedTwins root).dispatcher.routes.keys = [ascii "/a/<x>", ascii "/a/<y>"] ∧
      (entriesOf root).map (·.urlPath) = [ascii "/a/<x>", ascii "/a/<y>"] ∧
      ∀ e ∈ entriesOf root, shape e.segments = [some (ascii "a"), none] ∧
        e.middlewares.isEmpty)) = true := by decide +kernel
  obtain ⟨root, found, shown⟩ := (Option.any_eq_true _ _).mp shown
  obtain ⟨mounted, keys, listed, alike⟩ := of_decide_eq_true shown
  obtain ⟨x, rest, entries, first, listed⟩ := List.map_eq_cons_iff.mp listed
  obtain ⟨y, rest, rfl, second, listed⟩ := List.map_eq_cons_iff.mp listed
  obtain rfl := List.map_eq_nil_iff.mp listed
  have live {key : Bytes} (stored : key ∈ [ascii "/a/<x>", ascii "/a/<y>"]) :=
    route_reached_unless_overtaken reached found { sink := none }
      { logger := { level := .warning }, state := () } mounted (keys ▸ stored)
  have discreet : ∀ e ∈ entriesOf root, ∀ m ∈ e.middlewares, m.Discreet := by
    intro e he m hm
    rw [List.isEmpty_iff.mp (alike e he).2] at hm
    cases hm
  have overtakes : Overtakes root (ascii "/a/<x>") [x] y := by
    refine ⟨⟨[], entries⟩, second ▸ by decide, x, List.mem_singleton_self x, first, ?_⟩
    rw [entries] at alike
    exact (alike x (by simp)).1.trans (alike y (by simp)).1.symm
  obtain ⟨hidden, -, warned⟩ := (live (by simp)).2 [x] y overtakes
  refine ⟨root, [x], y, found, overtakes, hidden, second ▸ warned discreet rfl rfl, ?_⟩
  apply (live (by simp)).1
  rintro before e ⟨⟨after, placed⟩, -, z, hz, same, -⟩
  -- What has the second key is last, and nothing comes after it.
  cases before with
  | nil => cases hz
  | cons b before =>
    obtain ⟨rfl, ends⟩ := List.cons.inj (entries.symm.trans placed)
    obtain rfl : before = [] := by
      cases before <;> simp at ends ⊢
    rw [List.mem_singleton.mp hz, first] at same
    exact absurd same (by decide)

end HttpRouting
