import HttpRouting.Dictionary.Latest
import HttpRouting.Proofs.Scanning

namespace HttpRouting.Template

open Byte Bytes

inductive Declares : Bytes → List Descriptor → Prop
  | done {s : Bytes} (blank : skipBlank s = []) : Declares s []
  | separator {s rest : Bytes} {ds : List Descriptor} (start : skipBlank s = ampersand :: rest)
      (more : Declares rest ds) : Declares s ds
  | param {b : UInt8} {s rest tail : Bytes} {d : Descriptor} {ds : List Descriptor}
      (start : skipBlank s = b :: rest) (other : b ≠ ampersand)
      (read : queryParam (b :: rest) = .ok (d, tail)) (more : Declares tail ds) :
      Declares s (d :: ds)

def byName (ds : List Descriptor) : List (Bytes × Descriptor) := ds.map fun d => (d.name, d)

theorem names_byName (ds : List Descriptor) : (byName ds).map (·.1) = ds.map (·.name) := by
  rw [byName, List.map_map]
  rfl

theorem mem_byName_iff {ds : List Descriptor} {name : Bytes} {d : Descriptor} :
    (name, d) ∈ byName ds ↔ d ∈ ds ∧ d.name = name := by
  rw [byName, List.mem_map]
  constructor
  · rintro ⟨d', hd, ⟨⟩⟩
    exact ⟨hd, rfl⟩
  · rintro ⟨hd, rfl⟩
    exact ⟨d, hd, rfl⟩

section

variable {params params' : Params} {s : Bytes}

theorem query_blank (blank : skipBlank s = []) : query params s = .ok params := by
  rw [query]
  split
  · rfl
  · rename_i start
    rw [blank] at start
    cases start

theorem query_separator {rest : Bytes} (start : skipBlank s = ampersand :: rest) :
    query params s = query params rest := by
  rw [query]
  split
  · rename_i blank
    rw [blank] at start
    cases start
  · rename_i b rest' start'
    rw [start] at start'
    cases start'
    rw [if_pos rfl]

theorem query_param {b : UInt8} {rest tail : Bytes} {d : Descriptor}
    (start : skipBlank s = b :: rest) (other : b ≠ ampersand)
    (read : queryParam (b :: rest) = .ok (d, tail)) (fresh : params.contains d.name = false) :
    query params s = query (params.insert d.name d) tail := by
  rw [query]
  split
  · rename_i blank
    rw [blank] at start
    cases start
  · rename_i b' rest' start'
    rw [start] at start'
    cases start'
    rw [if_neg other]
    split
    · rename_i failed
      rw [read] at failed
      cases failed
    · rename_i d' tail' read'
      rw [read] at read'
      cases read'
      rw [fresh, if_neg Bool.false_ne_true]

theorem Declares.query_eq {ds : List Descriptor} (h : Declares s ds)
    (distinct : (ds.map (·.name)).Nodup) (fresh : ∀ d ∈ ds, params.contains d.name = false) :
    query params s = .ok (params.insertAll (byName ds)) := by
  induction h generalizing params with
  | done blank => exact query_blank blank
  | separator start _ ih => rw [query_separator start, ih distinct fresh]
  | @param b s rest tail d ds start other read _ ih =>
    obtain ⟨first, others⟩ := List.forall_mem_cons.mp fresh
    rw [List.map_cons, List.nodup_cons] at distinct
    rw [query_param start other read first, ih distinct.2]
    · rfl
    · intro d' hd
      refine Dictionary.contains_insert_iff.mpr ⟨fun same => distinct.1 ?_, others d' hd⟩
      exact List.mem_map.mpr ⟨d', hd, same⟩

theorem declares_of_query (h : query params s = .ok params') :
    ∃ ds, Declares s ds ∧ (ds.map (·.name)).Nodup ∧ (∀ d ∈ ds, params.contains d.name = false) ∧
      params' = params.insertAll (byName ds) := by
  fun_induction query params s with
  | case1 params s blank =>
    cases h
    exact ⟨[], .done blank, List.nodup_nil, nofun, rfl⟩
  | case2 params s rest start _ ih =>
    obtain ⟨ds, declares, more⟩ := ih h
    exact ⟨ds, .separator start declares, more⟩
  | case3 => cases h
  | case4 => cases h
  | case5 params s b rest start _ other d tail read _ fresh ih =>
    obtain ⟨ds, declares, distinct, apart, same⟩ := ih h
    refine ⟨d :: ds, .param start other read declares, ?_, ?_, same⟩
    · refine List.nodup_cons.mpr ⟨fun again => ?_, distinct⟩
      obtain ⟨d', hd, name⟩ := List.mem_map.mp again
      exact (Dictionary.contains_insert_iff.mp (apart d' hd)).1 name
    · refine List.forall_mem_cons.mpr ⟨Bool.eq_false_iff.mpr fresh, fun d' hd => ?_⟩
      exact (Dictionary.contains_insert_iff.mp (apart d' hd)).2

end

section

variable {d d' : Descriptor} {s tail : Bytes} (more : Bytes)

theorem addNamed_start {start text : Bytes} (h : addNamed d start text = .ok d') (start' : Bytes) :
    addNamed d start' text = .ok d' := by
  rw [addNamed] at h ⊢
  split
  · rename_i empty
    rwa [if_pos empty] at h
  · rename_i full
    rw [if_neg full] at h
    split
    · rename_i t found
      rwa [found] at h
    · rename_i none
      rw [none] at h
      cases h

theorem addEntry_start {start entry rest : Bytes} (h : addEntry d start entry rest = .ok d')
    (start' rest' : Bytes) : addEntry d start' entry rest' = .ok d' := by
  rw [addEntry] at h ⊢
  split
  · rename_i empty
    rw [if_pos empty] at h
    cases h
  · rename_i full
    rwa [if_neg full] at h

def TypePart.before (more : Bytes) : TypePart → TypePart
  | .name start text => .name (start ++ more) text
  | .array start => .array (start ++ more)
  | .list start entry => .list (start ++ more) entry

theorem typePart_append {part : TypePart} (h : typePart d part s = .ok (d', tail)) :
    typePart d (part.before (ampersand :: more)) (s ++ ampersand :: more) =
      .ok (d', tail ++ ampersand :: more) := by
  induction s generalizing part d with
  | nil =>
    cases part with
    | name start text =>
      obtain ⟨e, added, same⟩ := Scan.bind_eq_ok.mp h
      cases same
      exact Scan.bind_eq_ok.mpr ⟨_, addNamed_start added _, rfl⟩
    | array start => cases h
    | list start entry => cases h
  | cons b s ih =>
    -- Each branch of the reading is followed in the longer text.
    have branch {c : Prop} [Decidable c] {x y x' y' : Scan (Descriptor × Bytes)}
        (h : (if c then x else y) = .ok (d', tail))
        (hx : x = .ok (d', tail) → x' = .ok (d', tail ++ ampersand :: more))
        (hy : y = .ok (d', tail) → y' = .ok (d', tail ++ ampersand :: more)) :
        (if c then x' else y') = .ok (d', tail ++ ampersand :: more) := by
      by_cases hc : c
      · rw [if_pos hc] at h ⊢
        exact hx h
      · rw [if_neg hc] at h ⊢
        exact hy h
    have after {x x' : Scan Descriptor} {k k' : Descriptor → Scan (Descriptor × Bytes)}
        (h : x >>= k = .ok (d', tail)) (hx : ∀ e, x = .ok e → x' = .ok e)
        (hk : ∀ e, k e = .ok (d', tail) → k' e = .ok (d', tail ++ ampersand :: more)) :
        x' >>= k' = .ok (d', tail ++ ampersand :: more) := by
      obtain ⟨e, read, h⟩ := Scan.bind_eq_ok.mp h
      exact Scan.bind_eq_ok.mpr ⟨e, hx e read, hk e h⟩
    cases part with
    | name start text =>
      have named (e : Descriptor) (h : addNamed d start text = .ok e) :
          addNamed d (start ++ ampersand :: more) text = .ok e := addNamed_start h _
      refine branch h (fun h => after h named ?_) fun h => branch h ih fun h => ?_
      · rintro e ⟨⟩
        rfl
      · refine branch h (fun h => after h named fun e => ih) fun h => ?_
        refine branch h (fun h => after h named fun e => ih) fun h => ?_
        refine branch h (fun h => after h named fun e => ih) fun h => ?_
        have same := ih h
        by_cases empty : text = [] <;> simpa [TypePart.before, empty] using same
    | array start => exact branch h ih nofun
    | list start entry =>
      have listed (e : Descriptor) (h : addEntry d start entry s = .ok e) :
          addEntry d (start ++ ampersand :: more) entry (s ++ ampersand :: more) = .ok e :=
        addEntry_start h _ _
      refine branch h nofun fun h => branch h (fun h => after h listed fun e => ih) fun h => ?_
      exact branch h (fun h => after h listed fun e => ih) ih

theorem queryPattern_append (h : queryPattern d s = .ok (d', tail)) :
    queryPattern d (s ++ ampersand :: more) = .ok (d', tail ++ ampersand :: more) := by
  rw [queryPattern] at h ⊢
  cases s with
  | nil =>
    cases h
    rfl
  | cons b s =>
    rw [List.cons_append, List.head?_cons] at *
    by_cases opens : some b = some leftBrace
    · rw [if_pos opens] at h ⊢
      obtain ⟨⟨p, rest⟩, scanned, same⟩ := Scan.bind_eq_ok.mp h
      cases same
      obtain ⟨source, split, nested, compiled⟩ := braced_eq_ok_iff.mp scanned
      have scanned' : braced (b :: (s ++ ampersand :: more)) =
          .ok (p, rest ++ ampersand :: more) := by
        refine braced_eq_ok_iff.mpr ⟨source, ?_, nested, compiled⟩
        rw [List.tail_cons] at split ⊢
        rw [split, List.append_assoc]
        rfl
      rw [scanned', ← skipBlank_append_cons (by decide)]
      rfl
    · rw [if_neg opens] at h ⊢
      cases h
      rfl

theorem queryParam_append (h : queryParam s = .ok (d, tail)) :
    queryParam (s ++ ampersand :: more) = .ok (d, tail ++ ampersand :: more) := by
  have stop : inQueryName ampersand = false := by decide
  rw [queryParam] at h ⊢
  simp only [takeWhile_append_cons s more stop, dropWhile_append_cons s more stop,
    after?_append (show ampersand ≠ equals by decide)]
  split at h
  · cases h
  · rename_i named
    rw [if_neg named]
    cases value : after? equals (s.dropWhile inQueryName) with
    | none =>
      rw [value] at h
      cases h
    | some value =>
      rw [value] at h
      obtain ⟨⟨d', left⟩, scanned, h⟩ := Scan.bind_eq_ok.mp h
      obtain ⟨⟨e, rest⟩, typed, same⟩ := Scan.bind_eq_ok.mp h
      cases same
      have scanned' := queryPattern_append more scanned
      rw [← skipBlank_append_cons (by decide)] at scanned'
      have marked : (after? colon (left ++ ampersand :: more)).getD (left ++ ampersand :: more) =
          (after? colon left).getD left ++ ampersand :: more := by
        rw [after?_append (show ampersand ≠ colon by decide)]
        cases after? colon left <;> rfl
      have typed' := typePart_append more typed
      rw [TypePart.before, ← marked] at typed'
      exact Scan.bind_eq_ok.mpr ⟨_, scanned', Scan.bind_eq_ok.mpr ⟨_, typed', rfl⟩⟩

theorem Declares.append {s s' : Bytes} {ds ds' : List Descriptor} (h : Declares s ds)
    (h' : Declares s' ds') : Declares (s ++ ampersand :: s') (ds ++ ds') := by
  have skipped (s : Bytes) : skipBlank (s ++ ampersand :: s') = skipBlank s ++ ampersand :: s' :=
    skipBlank_append_cons (by decide) s s'
  induction h with
  | done blank => exact .separator (by rw [skipped, blank]; rfl) h'
  | separator start _ ih => exact .separator (by rw [skipped, start]; rfl) ih
  | param start other read _ ih =>
    exact .param (by rw [skipped, start]; rfl) other (queryParam_append s' read) ih

end

end HttpRouting.Template
