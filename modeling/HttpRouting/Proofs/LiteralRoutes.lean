import HttpRouting.Proofs.Matching
import HttpRouting.Proofs.UrlTemplates

namespace HttpRouting

open Byte Bytes

variable {σ : Type}

def fullParts (s : Bytes) : List Bytes := (s.splitOn slash).filter (· ≠ [])

theorem fullParts_nil : fullParts [] = [] := rfl

theorem fullParts_append_slash (s s' : Bytes) :
    fullParts (s ++ slash :: s') = fullParts s ++ fullParts s' := by
  have split : (s ++ slash :: s').splitOn slash = s.splitOn slash ++ s'.splitOn slash :=
    List.splitOnP_append_cons s s' (beq_self_eq_true slash)
  rw [fullParts, split, List.filter_append]
  rfl

theorem fullParts_slash (s : Bytes) : fullParts (slash :: s) = fullParts s :=
  fullParts_append_slash [] s

theorem fullParts_of_not_mem {s : Bytes} (h : slash ∉ s) :
    fullParts s = if s = [] then [] else [s] := by
  have whole : s.splitOn slash = [s] :=
    List.splitOnP_eq_singleton fun b hb => beq_false_of_ne fun same => h (same ▸ hb)
  rw [fullParts, whole]
  by_cases empty : s = [] <;> simp [empty]

theorem filter_splitPath (path : Bytes) : (splitPath path).filter (· ≠ []) = fullParts path := by
  rw [splitPath]
  split
  · rename_i bare
    rcases bare with rfl | rfl
    · rfl
    · exact (fullParts_slash []).symm
  · cases inner : after? slash path with
    | none => rfl
    | some rest =>
      rw [after?_eq_some_iff.mp inner, fullParts_slash]
      rfl

theorem fullParts_reading (c : DispatchConfig) (path : Bytes) :
    fullParts (c.reading path) = fullParts path := by
  rw [DispatchConfig.reading]
  split
  · rfl
  · split
    · rename_i empty
      rw [empty]
      exact fullParts_slash []
    · split
      · rename_i trailing
        obtain ⟨start, rfl⟩ := List.getLast?_eq_some_iff.mp trailing.2
        rw [List.dropLast_concat, fullParts_append_slash, fullParts_nil, List.append_nil]
      · rfl

def Meets (s s' : Bytes) : Prop :=
  s = [] ∨ s' = [] ∨ s.getLast? = some slash ∨ s'.head? = some slash

instance (s s' : Bytes) : Decidable (Meets s s') :=
  inferInstanceAs (Decidable (s = [] ∨ s' = [] ∨ s.getLast? = some slash ∨ s'.head? = some slash))

theorem fullParts_append {s s' : Bytes} (h : Meets s s') :
    fullParts (s ++ s') = fullParts s ++ fullParts s' := by
  rcases h with rfl | rfl | last | first
  · rfl
  · rw [List.append_nil, fullParts_nil, List.append_nil]
  · obtain ⟨start, rfl⟩ := List.getLast?_eq_some_iff.mp last
    rw [List.append_assoc, List.singleton_append, fullParts_append_slash, fullParts_append_slash,
      fullParts_nil, List.append_nil]
  · obtain ⟨rest, rfl⟩ := List.head?_eq_some_iff.mp first
    rw [fullParts_append_slash, fullParts_slash]

namespace Template

theorem unescape_eq_self {s : Bytes} (plain : backslash ∉ s) : unescape s = s := by
  induction s with
  | nil => rfl
  | cons b s ih =>
    rw [List.mem_cons, not_or] at plain
    rw [unescape, if_neg fun mark => plain.1 mark.1.symm, ih plain.2]

theorem segments_of_literal {text : Bytes} (written : Literal text) (plain : backslash ∉ text) :
    (Piece.literal text).segments = (fullParts text).map .literal := by
  rw [Piece.segments, unescape_eq_self plain, fullParts_of_not_mem written.no_slash]
  split <;> rfl

theorem segmentsOf_literal {pieces : List Piece} (written : ∀ p ∈ pieces, p.Written)
    (plain : backslash ∉ joined pieces) (literal : ∀ name, .param name ∉ segmentsOf pieces) :
    segmentsOf pieces = (fullParts (joined pieces)).map .literal := by
  induction pieces with
  | nil => rfl
  | cons p pieces ih =>
    obtain ⟨first, others⟩ := List.forall_mem_cons.mp written
    have segments : segmentsOf (p :: pieces) = p.segments ++ segmentsOf pieces := List.flatMap_cons
    rw [segments] at literal ⊢
    cases p with
    | param text d =>
      exact absurd (List.mem_append_left _ List.mem_cons_self) (literal d.name)
    | literal text =>
      cases pieces with
      | nil =>
        rw [joined_singleton] at plain ⊢
        rw [segments_of_literal first plain]
        exact List.append_nil _
      | cons q pieces =>
        rw [joined_cons (List.cons_ne_nil _ _)] at plain ⊢
        rw [List.mem_append, List.mem_cons, not_or, not_or] at plain
        have below (name : Bytes) : .param name ∉ segmentsOf (q :: pieces) := fun inside =>
          literal name (List.mem_append_right _ inside)
        rw [segments_of_literal first plain.1, ih others plain.2.2 below, fullParts_append_slash,
          List.map_append]
        rfl

theorem segments_of_parse {source : Bytes} {t : Template} (h : parse source = .ok t)
    (plain : backslash ∉ t.urlPath) (literal : ∀ name, .param name ∉ t.segments) :
    t.segments = (fullParts t.urlPath).map .literal := by
  obtain ⟨pieces, -, reads, joins, -⟩ := pieces_of_parse h
  obtain ⟨written, -, -, same⟩ := Url.reads_iff.mp reads
  have segments : t.segments = segmentsOf pieces := congrArg Url.segments same
  rw [segments] at literal ⊢
  rw [joins] at plain ⊢
  exact segmentsOf_literal written plain literal

end Template

/-- The URL of each router along a line meets those below it. -/
def Seamless : List (Router σ) → Prop
  | [] => True
  | r :: line => Meets r.template.urlPath (spell line) ∧ Seamless line

instance decidableSeamless : (line : List (Router σ)) → Decidable (Seamless line)
  | [] => inferInstanceAs (Decidable True)
  | r :: line =>
    have := decidableSeamless line
    inferInstanceAs (Decidable (Meets r.template.urlPath (spell line) ∧ Seamless line))

theorem segments_along {line : List (Router σ)}
    (parsed : ∀ n ∈ line, ∃ source, Template.parse source = .ok n.template)
    (seamless : Seamless line) (plain : backslash ∉ spell line)
    (literal : ∀ name, .param name ∉ (Entry.along line).segments) :
    (Entry.along line).segments = (fullParts (spell line)).map .literal := by
  induction line with
  | nil => rfl
  | cons r line ih =>
    obtain ⟨⟨source, own⟩, others⟩ := List.forall_mem_cons.mp parsed
    have segments : (Entry.along (r :: line)).segments =
        r.template.segments ++ (Entry.along line).segments := by
      rw [Entry.along, List.flatMap_cons]
      rfl
    rw [segments] at literal ⊢
    rw [spell_cons, List.mem_append, not_or] at plain
    have above (name : Bytes) : .param name ∉ r.template.segments := fun inside =>
      literal name (List.mem_append_left _ inside)
    have below (name : Bytes) : .param name ∉ (Entry.along line).segments := fun inside =>
      literal name (List.mem_append_right _ inside)
    rw [Template.segments_of_parse own plain.1 above, ih others seamless.2 plain.2 below,
      spell_cons, fullParts_append seamless.1, List.map_append]

section

variable {segments segments' : List Segment}

theorem fits_map_literal (parts : List Bytes) : Fits (parts.map .literal) parts := by
  refine ⟨List.length_map _, fun i text found => ?_⟩
  rw [List.getElem?_map] at found
  obtain ⟨part, there, same⟩ := Option.map_eq_some_iff.mp found
  rw [there, Segment.literal.inj same]

theorem shape_map_literal (texts : List Bytes) : shape (texts.map .literal) = texts.map some := by
  rw [shape, List.map_map]
  rfl

theorem eq_map_literal {texts : List Bytes}
    (h : shape segments = shape (texts.map .literal) ∨
      Preferred (shape segments) (shape (texts.map .literal))) :
    segments = texts.map .literal := by
  rw [shape_map_literal] at h
  rcases h with same | ⟨common, text, rest, rest', -, split⟩
  · induction segments generalizing texts with
    | nil =>
      obtain rfl := List.map_eq_nil_iff.mp same.symm
      rfl
    | cons segment segments ih =>
      obtain ⟨text, texts, rfl, first, others⟩ := List.map_eq_cons_iff.mp same.symm
      cases segment with
      | literal text' => rw [ih others.symm, List.map_cons, Option.some.inj first]
      | param name => cases first
  · have hole : none ∈ texts.map some := split ▸ List.mem_append_right _ List.mem_cons_self
    obtain ⟨text, -, absent⟩ := List.mem_map.mp hole
    cases absent

end

namespace Dispatcher

theorem Holds.match?_literal {d : Dispatcher σ} {routes : List (CompiledRoute σ)}
    (h : d.Holds routes)
    (aligned : ∀ r ∈ routes, ∀ r' ∈ routes, r.entry.urlPath = r'.entry.urlPath →
      r.entry.segments = r'.entry.segments)
    {r : CompiledRoute σ} (hr : r ∈ routes) {path : Bytes}
    (literal : r.entry.segments = (fullParts path).map .literal) :
    (d.match? path = none ↔ [] ∈ splitPath (d.config.reading path)) ∧
      ∀ m, d.match? path = some m →
        ∃ route, d.find? m.key = some route ∧ route.entry.segments = r.entry.segments := by
  have parts (full : [] ∉ splitPath (d.config.reading path)) :
      splitPath (d.config.reading path) = fullParts path := by
    rw [← fullParts_reading d.config, ← filter_splitPath, List.filter_eq_self.mpr]
    intro part hp
    rw [decide_eq_true_eq]
    rintro rfl
    exact full hp
  have fits (full : [] ∉ splitPath (d.config.reading path)) :
      Fits r.entry.segments (splitPath (d.config.reading path)) := by
    rw [parts full, literal]
    exact fits_map_literal _
  have missed : d.match? path = none ↔ [] ∈ splitPath (d.config.reading path) := by
    rw [h.match?_eq_none_iff]
    refine ⟨fun none => ?_, .inl⟩
    rcases none with blank | unfit
    · exact blank
    · exact Decidable.byContradiction fun full => unfit r hr (fits full)
  refine ⟨missed, fun m matched => ?_⟩
  have full : [] ∉ splitPath (d.config.reading path) := fun blank => by
    rw [missed.mpr blank] at matched
    cases matched
  obtain ⟨winner, hw, wins, key, -⟩ := h.match?_eq_some aligned matched
  obtain ⟨route, hroute, same, found⟩ := h.find?_of_mem hw
  have best := wins.preferred r.entry (List.mem_map_of_mem hr) (fits full)
  refine ⟨route, by rw [key]; exact found, ?_⟩
  rw [literal] at best ⊢
  rw [aligned route hroute winner hw same, eq_map_literal best]

end Dispatcher

theorem literal_route_answers {calls : List (Call σ)} {f : Forest σ} (hf : f.Reached calls)
    {id : Nat} {root : Router σ} {children : Forest σ} (found : f.tree? id = some (root, children))
    (d : Dispatcher σ) (w : World σ) {k : Bytes} {route : CompiledRoute σ}
    (stored : (d.mount root w).dispatcher.find? k = some route) (plain : backslash ∉ k)
    (literal : ∀ name, .param name ∉ route.entry.segments) :
    ∃ line, (line = [] ∨ line ∈ children.lines) ∧ route.entry = Entry.along (root :: line) ∧
      k = spell (root :: line) ∧
      (Seamless (root :: line) →
        ((d.mount root w).dispatcher.match? k = none ↔ [] ∈ splitPath (d.config.reading k)) ∧
        ∀ m, (d.mount root w).dispatcher.match? k = some m →
          ∃ route', (d.mount root w).dispatcher.find? m.key = some route' ∧
            route'.entry.segments = route.entry.segments) := by
  have holds := d.holds_mount root w
  have config : (d.mount root w).dispatcher.config = d.config := d.config_mount root w
  have last := stored
  rw [Dispatcher.find?, holds.found] at last
  obtain ⟨route', hr, same⟩ := List.mem_map.mp (mem_of_latest last)
  obtain ⟨rfl, rfl⟩ := Prod.mk.inj same
  have answers {line : List (Router σ)} (entry : route'.entry = Entry.along (root :: line))
      (parsed : ∀ n ∈ line, ∃ source, Template.parse source = .ok n.template)
      (seamless : Seamless (root :: line)) := by
    have parsed' : ∀ n ∈ root :: line, ∃ source, Template.parse source = .ok n.template :=
      List.forall_mem_cons.mpr ⟨hf.parsed root.bare (Forest.bare_mem_routers found), parsed⟩
    have segments : route'.entry.segments = (fullParts route'.entry.urlPath).map .literal := by
      rw [entry] at plain literal ⊢
      exact segments_along parsed' seamless plain literal
    have both := holds.match?_literal (aligned_mountedRoutes hf found d w) hr segments
    rw [config] at both
    exact both
  have listed := (d.mountedEntries_prefix root w).subset (List.mem_map_of_mem hr)
  rcases mem_entriesOf hf found listed with ⟨-, own⟩ | ⟨line, hl, below, -⟩
  · have entry : route'.entry = Entry.along [root] := own.trans root.ownEntry_eq_along
    exact ⟨[], .inl rfl, entry, congrArg Entry.urlPath entry, answers entry nofun⟩
  · have parsed := parsed_of_line hf found hl
    exact ⟨line, .inr hl, below, congrArg Entry.urlPath below, answers below parsed⟩

def mountedOn (ignoreTrailingSlash : Bool) (root : Router Unit) : Dispatcher Unit :=
  (({ sink := none, config := { ignoreTrailingSlash } } : Dispatcher Unit).mount root
    { state := () }).dispatcher

def trailing : List (Call Unit) :=
  [.path 0 (ascii "/v1/"), .path 1 (ascii "users/"), .path 2 (ascii "<name>"),
    .handle 1 .get (some (plainHandler 0)), .handle 2 .get (some (plainHandler 1)),
    .nest 0 [some 1, some 2]]

theorem literal_route_answers_trailing :
    ∃ root m route, (Forest.nil.after trailing).find? 0 = some root ∧
      (mountedOn true root).match? (ascii "/v1/users/") = some m ∧
      (mountedOn true root).find? m.key = some route ∧
      route.entry.segments = [.literal (ascii "v1"), .literal (ascii "users")] := by
  have reached : Forest.Reached trailing (Forest.nil.after trailing) :=
    Forest.Reached.start.after (by decide +kernel)
  have shown : ((Forest.nil.after trailing).tree? 0).any (fun t =>
      decide (((mountedOn true t.1).find? (ascii "/v1/users/")).map (·.entry.segments) =
        some [.literal (ascii "v1"), .literal (ascii "users")]) &&
      ([] :: t.2.lines).all fun line => decide (Seamless (t.1 :: line))) = true := by
    decide +kernel
  obtain ⟨⟨root, children⟩, found, shown⟩ := (Option.any_eq_true _ _).mp shown
  obtain ⟨declared, seamless⟩ := Bool.and_eq_true_iff.mp shown
  obtain ⟨route, stored, segments⟩ := Option.map_eq_some_iff.mp (of_decide_eq_true declared)
  have literal (name : Bytes) : .param name ∉ route.entry.segments := by
    rw [segments]
    simp
  obtain ⟨line, there, -, -, answers⟩ := literal_route_answers reached found
    { sink := none, config := { ignoreTrailingSlash := true } } { state := () } stored (by decide)
    literal
  obtain ⟨missed, answered⟩ := answers <| of_decide_eq_true <|
    List.all_eq_true.mp seamless line (List.mem_cons.mpr there)
  obtain ⟨m, matched⟩ := Option.ne_none_iff_exists'.mp (mt missed.mp (by decide))
  obtain ⟨route', found', same⟩ := answered m matched
  refine ⟨root, m, route', ?_, matched, found', same.trans segments⟩
  rw [Forest.find?, found]
  rfl

def unanswered : List (Call Unit) :=
  [.path 0 [], .path 1 (ascii "/a//b"), .path 2 (ascii "/c"), .path 3 (ascii "d"),
    .handle 1 .get (some (plainHandler 0)), .handle 3 .get (some (plainHandler 1)),
    .nest 2 [some 3], .nest 0 [some 1, some 2]]

theorem literal_routes_unanswered :
    Forest.Reached unanswered (Forest.nil.after unanswered) ∧
      ∃ root, (Forest.nil.after unanswered).find? 0 = some root ∧
        ∀ ignoreTrailingSlash, ∀ k ∈ [ascii "/a//b", ascii "/cd"], backslash ∉ k ∧
          ∃ route, (mountedOn ignoreTrailingSlash root).find? k = some route ∧
            (∀ name, .param name ∉ route.entry.segments) ∧
            (mountedOn ignoreTrailingSlash root).match? k = none := by
  refine ⟨Forest.Reached.start.after (by decide +kernel), ?_⟩
  have shown : ((Forest.nil.after unanswered).find? 0).any (fun root =>
      [true, false].all fun ignore => [ascii "/a//b", ascii "/cd"].all fun k =>
        ((mountedOn ignore root).find? k).any (fun route =>
          route.entry.segments.all fun segment => segment.shape.isSome) &&
        ((mountedOn ignore root).match? k).isNone) = true := by decide +kernel
  obtain ⟨root, found, shown⟩ := (Option.any_eq_true _ _).mp shown
  refine ⟨root, found, fun ignore k hk => ⟨?_, ?_⟩⟩
  · revert k
    decide
  · have both : ignore ∈ [true, false] := by cases ignore <;> decide
    have shown := List.all_eq_true.mp (List.all_eq_true.mp shown ignore both) k hk
    obtain ⟨declared, missed⟩ := Bool.and_eq_true_iff.mp shown
    obtain ⟨route, stored, literal⟩ := (Option.any_eq_true _ _).mp declared
    refine ⟨route, stored, fun name inside => ?_, Option.isNone_iff_eq_none.mp missed⟩
    cases List.all_eq_true.mp literal _ inside

end HttpRouting
