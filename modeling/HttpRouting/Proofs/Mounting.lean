import HttpRouting.Proofs.TrieSearch

namespace HttpRouting

variable {σ : Type}

theorem Entry.entry_of_compile {e : Entry σ} {w w' : World σ} {route : CompiledRoute σ}
    (h : e.compile w = (.ok route, w')) : route.entry = e := by
  obtain ⟨chains, _, -, made⟩ := run_bind_eq_ok.mp h
  cases made
  rfl

namespace Dispatcher

def compiled (d : Dispatcher σ) : List (Entry σ) → World σ → List (CompiledRoute σ)
  | [], _ => []
  | e :: rest, w =>
    match e.compile w with
    | (.error _, _) => []
    | (.ok route, w) =>
      let placed := d.place route
      route :: placed.value.compiled rest (w.logAll placed.notices)

theorem value_place (d : Dispatcher σ) (r : CompiledRoute σ) :
    (d.place r).value = { d with
      routes := d.routes.insert r.entry.urlPath r
      matcher := d.matcher.insert r.entry.urlPath r.entry.segments } := by
  rw [place]
  cases d.routes.find? r.entry.urlPath with
  | none => dsimp only; split <;> rfl
  | some earlier => dsimp only; split <;> rfl

theorem dispatcher_mountEntries (d : Dispatcher σ) (entries : List (Entry σ)) (w : World σ) :
    (d.mountEntries entries w).dispatcher =
      (d.compiled entries w).foldl (fun d r => (d.place r).value) d := by
  induction entries generalizing d w with
  | nil => rfl
  | cons e rest ih =>
    rw [mountEntries, compiled]
    rcases e.compile w with ⟨_ | route, w⟩
    · rfl
    · exact ih _ _

theorem compiled_prefix (d : Dispatcher σ) (entries : List (Entry σ)) (w : World σ) :
    (d.compiled entries w).map (·.entry) <+: entries := by
  induction entries generalizing d w with
  | nil => exact List.prefix_rfl
  | cons e rest ih =>
    rw [compiled]
    rcases found : e.compile w with ⟨_ | route, w⟩
    · exact List.nil_prefix
    · rw [List.map_cons, Entry.entry_of_compile found, List.cons_prefix_cons]
      exact ⟨rfl, ih _ _⟩

theorem compiled_all {d : Dispatcher σ} {entries : List (Entry σ)} {w : World σ}
    (h : (d.mountEntries entries w).fault = none) :
    (d.compiled entries w).map (·.entry) = entries := by
  induction entries generalizing d w with
  | nil => rfl
  | cons e rest ih =>
    rw [mountEntries] at h
    rw [compiled]
    rcases found : e.compile w with ⟨_ | route, w⟩
    · rw [found] at h
      cases h
    · rw [found] at h
      rw [List.map_cons, Entry.entry_of_compile found, ih h]

theorem mountEntries_append {entries : List (Entry σ)} {d : Dispatcher σ} {w : World σ}
    (h : (d.mountEntries entries w).fault = none) (more : List (Entry σ)) :
    d.mountEntries (entries ++ more) w =
      (d.mountEntries entries w).dispatcher.mountEntries more (d.mountEntries entries w).world := by
  induction entries generalizing d w with
  | nil => rfl
  | cons e rest ih =>
    rw [mountEntries] at h
    rw [List.cons_append, mountEntries, mountEntries]
    rcases found : e.compile w with ⟨_ | route, v⟩
    · rw [found] at h
      cases h
    · rw [found] at h
      exact ih h

theorem fault_of_mountEntries_append {entries more : List (Entry σ)} {d : Dispatcher σ}
    {w : World σ} (h : (d.mountEntries (entries ++ more) w).fault = none) :
    (d.mountEntries entries w).fault = none := by
  induction entries generalizing d w with
  | nil => rfl
  | cons e rest ih =>
    rw [List.cons_append, mountEntries] at h
    rw [mountEntries]
    rcases found : e.compile w with ⟨_ | route, v⟩
    · rw [found] at h
      cases h
    · rw [found] at h
      exact ih h

theorem compile_of_mem_compiled {d : Dispatcher σ} {entries : List (Entry σ)} {w : World σ}
    {route : CompiledRoute σ} (h : route ∈ d.compiled entries w) :
    ∃ v v', route.entry.compile v = (.ok route, v') := by
  induction entries generalizing d w with
  | nil => cases h
  | cons e rest ih =>
    rw [compiled] at h
    rcases found : e.compile w with ⟨_ | first, w'⟩
    · rw [found] at h
      cases h
    · rw [found] at h
      rcases List.mem_cons.mp h with rfl | h
      · exact ⟨w, w', by rw [Entry.entry_of_compile found, found]⟩
      · exact ih h

structure Holds (d : Dispatcher σ) (routes : List (CompiledRoute σ)) : Prop where
  found : ∀ key, d.routes.find? key = latest key (routes.map fun r => (r.entry.urlPath, r))
  matched : ∀ segments, d.matcher.get? segments =
    latest (shape segments) (routes.map fun r => (shape r.entry.segments, r.entry.urlPath))

theorem Holds.find?_of_mem {d : Dispatcher σ} {routes : List (CompiledRoute σ)} (h : d.Holds routes)
    {r : CompiledRoute σ} (hr : r ∈ routes) :
    ∃ route ∈ routes, route.entry.urlPath = r.entry.urlPath ∧
      d.routes.find? r.entry.urlPath = some route := by
  have bound : (d.routes.find? r.entry.urlPath).isSome := by
    rw [h.found, latest_isSome_iff]
    exact ⟨_, List.mem_map_of_mem hr, rfl⟩
  obtain ⟨route, found⟩ := Option.isSome_iff_exists.mp bound
  have last := found
  rw [h.found] at last
  obtain ⟨route', hr', same⟩ := List.mem_map.mp (mem_of_latest last)
  obtain ⟨keyed, rfl⟩ := Prod.mk.inj same
  exact ⟨route', hr', keyed, found⟩

theorem Holds.place {d : Dispatcher σ} {routes : List (CompiledRoute σ)} (h : d.Holds routes)
    (r : CompiledRoute σ) : (d.place r).value.Holds (routes ++ [r]) where
  found key := by
    rw [value_place, List.map_append, latest_append, Dictionary.find?_insert, h.found,
      List.map_singleton, latest_cons, latest_nil, Option.none_or]
    by_cases same : r.entry.urlPath = key
    · simp [same]
    · simp [same, Ne.symm same]
  matched segments := by
    rw [value_place, List.map_append, latest_append, SegmentTrie.get?_insert, h.matched,
      List.map_singleton, latest_cons, latest_nil, Option.none_or]
    split <;> rfl

theorem Holds.foldl {d : Dispatcher σ} {routes : List (CompiledRoute σ)} (h : d.Holds routes)
    (more : List (CompiledRoute σ)) :
    (more.foldl (fun d r => (d.place r).value) d).Holds (routes ++ more) := by
  induction more generalizing d routes with
  | nil => rwa [List.append_nil]
  | cons r more ih =>
    rw [List.append_cons]
    exact ih (h.place r)

def cleared (d : Dispatcher σ) : Dispatcher σ := { d with routes := ∅, matcher := .empty }

theorem holds_mountEntries (d : Dispatcher σ) (entries : List (Entry σ)) (w : World σ) :
    (d.cleared.mountEntries entries w).dispatcher.Holds (d.cleared.compiled entries w) := by
  have start : d.cleared.Holds [] := ⟨fun _ => rfl, SegmentTrie.get?_empty⟩
  rw [dispatcher_mountEntries]
  exact start.foldl _

def mountedRoutes (d : Dispatcher σ) (root : Router σ) (w : World σ) : List (CompiledRoute σ) :=
  { d with routes := ∅, matcher := .empty }.compiled (entriesOf root) w

theorem dispatcher_mount (d : Dispatcher σ) (root : Router σ) (w : World σ) :
    (d.mount root w).dispatcher =
      ({ d with routes := ∅, matcher := .empty }.mountEntries (entriesOf root) w).dispatcher := by
  rw [mount]
  split <;> rfl

theorem fault_mount (d : Dispatcher σ) (root : Router σ) (w : World σ) :
    (d.mount root w).fault =
      ({ d with routes := ∅, matcher := .empty }.mountEntries (entriesOf root) w).fault := by
  rw [mount]
  split <;> rfl

theorem holds_mount (d : Dispatcher σ) (root : Router σ) (w : World σ) :
    (d.mount root w).dispatcher.Holds (d.mountedRoutes root w) := by
  rw [dispatcher_mount]
  exact d.holds_mountEntries (entriesOf root) w

theorem exists_mount (d : Dispatcher σ) (root : Router σ) (w : World σ) :
    ∃ routes matcher, (d.mount root w).dispatcher = { d with routes, matcher } := by
  have placed (rs : List (CompiledRoute σ)) (d : Dispatcher σ) :
      ∃ routes matcher, rs.foldl (fun d r => (d.place r).value) d = { d with routes, matcher } := by
    induction rs generalizing d with
    | nil => exact ⟨d.routes, d.matcher, rfl⟩
    | cons r rs ih =>
      obtain ⟨routes, matcher, same⟩ := ih (d.place r).value
      exact ⟨routes, matcher, by rw [List.foldl_cons, same, value_place]⟩
  obtain ⟨routes, matcher, same⟩ := placed (d.mountedRoutes root w) d.cleared
  exact ⟨routes, matcher, by rw [dispatcher_mount, dispatcher_mountEntries]; exact same⟩

theorem config_mount (d : Dispatcher σ) (root : Router σ) (w : World σ) :
    (d.mount root w).dispatcher.config = d.config := by
  obtain ⟨routes, matcher, same⟩ := d.exists_mount root w
  rw [same]

theorem sink_mount (d : Dispatcher σ) (root : Router σ) (w : World σ) :
    (d.mount root w).dispatcher.sink = d.sink := by
  obtain ⟨routes, matcher, same⟩ := d.exists_mount root w
  rw [same]

def mountedEntries (d : Dispatcher σ) (root : Router σ) (w : World σ) : List (Entry σ) :=
  (d.mountedRoutes root w).map (·.entry)

theorem mountedEntries_prefix (d : Dispatcher σ) (root : Router σ) (w : World σ) :
    d.mountedEntries root w <+: entriesOf root :=
  compiled_prefix _ _ w

theorem mountedEntries_eq {d : Dispatcher σ} {root : Router σ} {w : World σ}
    (h : (d.mount root w).fault = none) : d.mountedEntries root w = entriesOf root := by
  rw [fault_mount] at h
  exact compiled_all h

end Dispatcher

end HttpRouting
