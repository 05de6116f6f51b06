import HttpRouting.Proofs.QueryGrammar

namespace HttpRouting

open Byte Bytes Template

def verbatimTexts : List String :=
  ["Unclosed", "Unexpected character", "without a name", "Empty entry",
    "must span a whole segment"]

def TemplateFault.Verbatim (f : TemplateFault) : Prop :=
  ∃ part ∈ verbatimTexts, part.toList <:+: f.text.toList

instance : DecidablePred TemplateFault.Verbatim := fun f =>
  inferInstanceAs (Decidable (∃ part ∈ verbatimTexts, part.toList <:+: f.text.toList))

/-- The error has its place in the template, and quotes it. -/
structure TemplateError.PointsInto (source : Bytes) (e : TemplateError) : Prop where
  inside : e.position < source.length
  quotes : e.fragment ≠ []
  occurs : e.fragment.Sublist (source.drop e.position)
  verbatim : e.fault.Verbatim → e.fragment = (source.drop e.position).take e.fragment.length

inductive Blame.Within (s : Bytes) : Blame → Prop
  | span {fault : TemplateFault} {start : Bytes} {length : Nat} (inside : start <:+ s)
      (some : 0 < length) (fits : length ≤ start.length) :
      Within s ⟨fault, start.length, .span length⟩
  | text {fault : TemplateFault} {start bytes : Bytes} (inside : start <:+ s) (some : bytes ≠ [])
      (occurs : bytes.Sublist start) (loose : ¬fault.Verbatim) :
      Within s ⟨fault, start.length, .text bytes⟩

namespace Blame

theorem Within.mono {s s' : Bytes} {b : Blame} (h : b.Within s) (inside : s <:+ s') :
    b.Within s' := by
  cases h with
  | span inside' some fits => exact .span (inside'.trans inside) some fits
  | text inside' some occurs loose => exact .text (inside'.trans inside) some occurs loose

theorem within_between (fault : TemplateFault) {s start : Bytes} (inside : start <:+ s)
    (some : start ≠ []) (stop : Bytes) : (between fault start stop).Within s := by
  have length := List.length_pos_iff.mpr some
  exact .span inside (by omega) (by omega)

theorem within_of_length (fault : TemplateFault) {s : Bytes} {remaining length : Nat}
    (inside : remaining ≤ s.length) (some : 0 < length) (fits : length ≤ remaining) :
    Within s ⟨fault, remaining, .span length⟩ := by
  obtain ⟨start, suffix, rfl⟩ : ∃ start, start <:+ s ∧ start.length = remaining :=
    ⟨s.drop (s.length - remaining), List.drop_suffix .., by rw [List.length_drop]; omega⟩
  exact .span suffix some fits

theorem Within.pointsInto {source : Bytes} {b : Blame} (h : b.Within source) :
    (b.locate source).PointsInto source := by
  have place {start : Bytes} (inside : start <:+ source) :
      source.drop (source.length - start.length) = start :=
    (List.suffix_iff_eq_drop.mp inside).symm
  have before {start : Bytes} (inside : start <:+ source) (some : start ≠ []) :
      source.length - start.length < source.length := by
    have shorter := inside.length_le
    have length := List.length_pos_iff.mpr some
    omega
  cases h with
  | @span fault start length inside some fits =>
    have full : start ≠ [] := List.length_pos_iff.mp (Nat.lt_of_lt_of_le some fits)
    have quoted : (Blame.locate source ⟨fault, start.length, .span length⟩).fragment =
        start.take length := by rw [locate, place inside]
    refine ⟨before inside full, ?_, ?_, fun _ => ?_⟩
    · rw [quoted, ne_eq, List.take_eq_nil_iff]
      exact not_or.mpr ⟨Nat.ne_of_gt some, full⟩
    · rw [quoted, locate, place inside]
      exact List.take_sublist length start
    · rw [quoted, locate, place inside, List.length_take, Nat.min_eq_left fits]
  | @text fault start bytes inside some occurs loose =>
    have full : start ≠ [] := by
      rintro rfl
      exact some (List.sublist_nil.mp occurs)
    refine ⟨before inside full, some, ?_, fun exact => absurd exact loose⟩
    rw [locate, place inside]
    exact occurs

end Blame

namespace Scan

variable {α β : Type} {s s' : Bytes}

def BlamesIn (s : Bytes) (x : Scan α) : Prop := ∀ b, x = .error b → b.Within s

theorem blamesIn_ok (a : α) : BlamesIn s (.ok a) := nofun

theorem blamesIn_throw {b : Blame} (h : b.Within s) : BlamesIn s (throw b : Scan α) := by
  rintro _ ⟨⟩
  exact h

theorem blamesIn_between (fault : TemplateFault) {start : Bytes} (inside : start <:+ s)
    (some : start ≠ []) (stop : Bytes) :
    BlamesIn s (throw (.between fault start stop) : Scan α) :=
  blamesIn_throw (Blame.within_between fault inside some stop)

theorem BlamesIn.mono {x : Scan α} (h : x.BlamesIn s) (inside : s <:+ s') : x.BlamesIn s' :=
  fun b failed => (h b failed).mono inside

theorem BlamesIn.bind {x : Scan α} {f : α → Scan β} (h : x.BlamesIn s)
    (h' : ∀ a, x = .ok a → (f a).BlamesIn s) : (x >>= f).BlamesIn s := by
  cases x with
  | error b =>
    rintro _ ⟨⟩
    exact h b rfl
  | ok a => exact h' a rfl

end Scan

open Scan Blame

namespace Template

theorem skipBlank_suffix (s : Bytes) : skipBlank s <:+ s := List.dropWhile_suffix isBlank

theorem suffix_of_after? {b : UInt8} {s rest : Bytes} (h : after? b s = some rest) :
    rest <:+ s := by
  rw [after?_eq_some_iff.mp h]
  exact List.suffix_cons b rest

theorem blamesIn_braced {start : Bytes} (some : start ≠ []) : (braced start).BlamesIn start := by
  rw [braced]
  split
  · exact blamesIn_between .unclosedBrace List.suffix_rfl some []
  · rename_i source rest balance
    split
    · rename_i malformed
      have full : source ≠ [] := by
        rintro rfl
        exact absurd malformed (by decide +kernel)
      have inner : source <+: start.tail := ⟨_, (balanced_eq_some_iff.mp balance).1.symm⟩
      have occurs : source.Sublist start := inner.sublist.trans (List.tail_sublist start)
      exact blamesIn_throw (.text List.suffix_rfl full occurs (by decide +kernel))
    · exact blamesIn_ok _

section

variable {start s rest : Bytes} {d d' : Descriptor}

theorem blamesIn_namedType (inside : s <:+ start) (some : start ≠ []) :
    (namedType start d s).BlamesIn start := by
  have left := skipBlank_suffix (s.dropWhile isName)
  simp only [namedType]
  split
  · exact blamesIn_between .unclosedAngle List.suffix_rfl some []
  · rename_i closing
    split
    · exact blamesIn_ok _
    · refine blamesIn_throw (.text inside ?_ ?_ (by decide +kernel))
      · split
        · simpa using closing
        · assumption
      · split
        · exact (List.take_sublist 1 _).trans
            (left.sublist.trans (List.dropWhile_suffix isName).sublist)
        · exact (List.takeWhile_prefix isName).sublist

theorem blamesIn_declaration (inside : s <:+ start) (some : start ≠ []) :
    (declaration start d s).BlamesIn start := by
  rw [declaration]
  split
  · exact blamesIn_between .unclosedAngle List.suffix_rfl some []
  · rename_i full
    split
    · exact ((blamesIn_braced full).mono inside).bind fun _ _ => blamesIn_ok _
    · exact blamesIn_namedType inside some

theorem blamesIn_typed (inside : s <:+ start) (some : start ≠ []) :
    (typed start d s).BlamesIn start := by
  rw [typed]
  split
  · exact blamesIn_ok _
  · rename_i s' found
    have inner := (skipBlank_suffix s').trans ((suffix_of_after? found).trans inside)
    refine (blamesIn_declaration inner some).bind fun declared _ => ?_
    obtain ⟨e, left⟩ := declared
    dsimp only
    split
    · exact blamesIn_between .unclosedAngle List.suffix_rfl some []
    · exact blamesIn_ok _

theorem ne_nil_of_typed (h : typed start d s = .ok (d', rest)) (full : s ≠ []) : rest ≠ [] := by
  rw [typed] at h
  split at h
  · cases h
    exact full
  · obtain ⟨⟨e, left⟩, -, h⟩ := Scan.bind_eq_ok.mp h
    dsimp only at h
    split at h
    · cases h
    · cases h
      assumption

theorem blamesIn_pathParam (some : start ≠ []) : (pathParam start).BlamesIn start := by
  have inner : skipBlank ((skipBlank start.tail).dropWhile isName) <:+ start :=
    (skipBlank_suffix _).trans ((List.dropWhile_suffix isName).trans
      ((skipBlank_suffix _).trans (List.tail_suffix start)))
  simp only [pathParam]
  split
  · exact blamesIn_between .unclosedAngle List.suffix_rfl some []
  · rename_i full
    split
    · exact blamesIn_between .namelessPathParam List.suffix_rfl some _
    · refine (blamesIn_typed inner some).bind fun typed read => ?_
      obtain ⟨d, rest⟩ := typed
      obtain ⟨type, split, -⟩ := text_of_typed read
      have later : rest <:+ start := .trans ⟨type, split.symm⟩ inner
      dsimp only
      split
      · exact blamesIn_ok _
      · exact blamesIn_throw
          (within_between .strayByteInParam later (ne_nil_of_typed read full) rest)

end

section

variable {whole start text s rest : Bytes} {d d' : Descriptor}

theorem blamesIn_addNamed (inside : start <:+ whole) (occurs : text.Sublist start)
    (d : Descriptor) : (addNamed d start text).BlamesIn whole := by
  rw [addNamed]
  split
  · exact blamesIn_ok d
  · rename_i full
    split
    · exact blamesIn_ok _
    · exact blamesIn_throw (.text inside full occurs (by decide +kernel))

theorem blamesIn_addEntry (inside : start <:+ whole) (some : start ≠ []) (d : Descriptor)
    (entry rest : Bytes) : (addEntry d start entry rest).BlamesIn whole := by
  simp only [addEntry]
  split
  · exact blamesIn_between .emptyListEntry inside some rest
  · split <;> exact blamesIn_ok _

def TypePart.Begun (whole s : Bytes) : TypePart → Prop
  | .name start text => start <:+ whole ∧ ∃ before, start = before ++ s ∧ text.Sublist before
  | .array start | .list start _ => start <:+ whole ∧ start ≠ []

theorem TypePart.begun_name (inside : s <:+ whole) : (TypePart.name s []).Begun whole s :=
  ⟨inside, [], rfl, .slnil⟩

theorem TypePart.Begun.addNamed (h : (TypePart.name start text).Begun whole s) (d : Descriptor) :
    (addNamed d start text).BlamesIn whole := by
  obtain ⟨inside, before, rfl, occurs⟩ := h
  exact blamesIn_addNamed inside (occurs.trans (List.sublist_append_left before s)) d

theorem blamesIn_typePart {part : TypePart} (inside : s <:+ whole) (begun : part.Begun whole s) :
    (typePart d part s).BlamesIn whole := by
  induction s generalizing d part with
  | nil =>
    cases part with
    | name start text => exact (begun.addNamed d).bind fun _ _ => blamesIn_ok _
    | array start => exact blamesIn_between .unclosedBracket begun.1 begun.2 start
    | list start entry => exact blamesIn_between .unclosedParen begun.1 begun.2 []
  | cons b s ih =>
    have after : s <:+ whole := (List.suffix_cons b s).trans inside
    have opened : b :: s <:+ whole ∧ b :: s ≠ [] := ⟨inside, List.cons_ne_nil b s⟩
    cases part with
    | name start text =>
      have named := begun.addNamed d
      rw [typePart]
      split
      · exact named.bind fun _ _ => blamesIn_ok _
      · obtain ⟨started, before, rfl, occurs⟩ := begun
        split
        · have skipped := occurs.trans (List.sublist_append_left before [b])
          exact ih after ⟨started, before ++ [b], List.append_cons before b s, skipped⟩
        · split
          · exact named.bind fun _ _ => ih after (TypePart.begun_name after)
          · split
            · exact named.bind fun _ _ => ih after opened
            · split
              · exact named.bind fun _ _ => ih after opened
              · refine ih after ?_
                split
                · rename_i none
                  exact ⟨inside, [b], rfl, by rw [none]; exact .refl _⟩
                · exact ⟨started, before ++ [b], List.append_cons before b s,
                    occurs.append (.refl [b])⟩
    | array start =>
      rw [typePart]
      split
      · exact ih after (TypePart.begun_name after)
      · exact blamesIn_between .unclosedBracket begun.1 begun.2 start
    | list start entry =>
      have added := blamesIn_addEntry begun.1 begun.2 d entry s
      rw [typePart]
      split
      · exact blamesIn_between .unclosedParen begun.1 begun.2 (b :: s)
      · split
        · exact added.bind fun _ _ => ih after (TypePart.begun_name after)
        · split
          · exact added.bind fun _ _ => ih after begun
          · exact ih after begun

theorem blamesIn_queryPattern (d : Descriptor) (s : Bytes) : (queryPattern d s).BlamesIn s := by
  rw [queryPattern]
  split
  · rename_i opens
    have full : s ≠ [] := by
      rintro rfl
      cases opens
    exact (blamesIn_braced full).bind fun _ _ => blamesIn_ok _
  · exact blamesIn_ok _

theorem blamesIn_queryParam (some : start ≠ []) : (queryParam start).BlamesIn start := by
  have occurs : ((start.takeWhile inQueryName).filter (· != space)).Sublist start :=
    List.filter_sublist.trans (List.takeWhile_prefix inQueryName).sublist
  simp only [queryParam]
  split
  · exact blamesIn_between .namelessQueryParam List.suffix_rfl some _
  · rename_i named
    split
    · exact blamesIn_throw (.text List.suffix_rfl named occurs (by decide +kernel))
    · rename_i value signed
      have inner : skipBlank value <:+ start :=
        (skipBlank_suffix value).trans ((suffix_of_after? signed).trans (List.dropWhile_suffix _))
      refine ((blamesIn_queryPattern _ _).mono inner).bind fun patterned read => ?_
      obtain ⟨e, left⟩ := patterned
      obtain ⟨before, _, split, -⟩ := text_of_queryPattern rfl read
      have later : left <:+ start := .trans ⟨before, split.symm⟩
        ((suffix_of_after? signed).trans (List.dropWhile_suffix _))
      have typed : (after? colon left).getD left <:+ start := by
        cases found : after? colon left with
        | none => exact later
        | some rest => exact (suffix_of_after? found).trans later
      exact (blamesIn_typePart typed (TypePart.begun_name typed)).bind fun _ _ => blamesIn_ok _

end

theorem TypePartText.suffix {s tail : Bytes} {items : List TypeItem}
    (h : TypePartText s items tail) : tail <:+ s := by
  induction h with
  | last => exact List.suffix_append ..
  | mark _ _ _ ih => exact ih.trans ((List.suffix_append ..).trans (List.suffix_append ..))

theorem QueryParamText.suffix {s tail : Bytes} {q : QuerySpec} (h : QueryParamText s q tail) :
    tail <:+ s := by
  obtain ⟨-, -, -, -, -, typed⟩ := h
  rename_i letters pattern mark s
  have value : s <:+ pattern ++ (mark ++ s) :=
    (List.suffix_append mark s).trans (List.suffix_append ..)
  have whole : pattern ++ (mark ++ s) <:+ letters ++ equals :: (pattern ++ (mark ++ s)) :=
    (List.suffix_cons equals _).trans (List.suffix_append ..)
  exact typed.suffix.trans (value.trans whole)

theorem QueryParamText.name_occurs {s tail : Bytes} {q : QuerySpec} (h : QueryParamText s q tail) :
    q.name ≠ [] ∧ q.name.Sublist s := by
  obtain ⟨named, spelled, -, -, -, -⟩ := h
  refine ⟨named, ?_⟩
  rw [← spelled]
  exact List.filter_sublist.trans (List.sublist_append_left ..)

theorem blamesIn_query (params : Params) (s : Bytes) : (query params s).BlamesIn s := by
  fun_induction query params s with
  | case1 => exact blamesIn_ok _
  | case2 params s rest start _ ih =>
    exact ih.mono ((List.suffix_cons ampersand rest).trans (start ▸ skipBlank_suffix s))
  | case3 params s b rest start _ _ e failed =>
    have blamed := blamesIn_queryParam (List.cons_ne_nil b rest) e failed
    exact blamesIn_throw (blamed.mono (start ▸ skipBlank_suffix s))
  | case4 params s b rest start _ _ d tail read _ again =>
    obtain ⟨q, written, rfl⟩ := text_of_queryParam read
    rw [q.descriptor_name]
    obtain ⟨named, occurs⟩ := written.name_occurs
    exact blamesIn_throw (.text (start ▸ skipBlank_suffix s) named occurs (by decide +kernel))
  | case5 params s b rest start _ _ d tail read _ fresh ih =>
    obtain ⟨q, written, rfl⟩ := text_of_queryParam read
    exact ih.mono (written.suffix.trans (start ▸ skipBlank_suffix s))

theorem ParamText.name_occurs {text : Bytes} {d : Descriptor} (h : ParamText text d) :
    d.name ≠ [] ∧ d.name.Sublist text := by
  obtain ⟨-, named, -, -, typed⟩ := h
  rename_i name before after type
  have same : d.name = name := by cases typed <;> rfl
  have within : name <:+: leftAngle :: before ++ name ++ after ++ type ++ [rightAngle] :=
    ⟨leftAngle :: before, after ++ type ++ [rightAngle], by simp⟩
  rw [same]
  exact ⟨named, within.sublist⟩

theorem blamesIn_url {source : Bytes} {u : Url} {literal s : Bytes} (inside : s <:+ source)
    (begun : literal.length + s.length ≤ source.length) : (url u literal s).BlamesIn source := by
  -- A segment that has been begun is never longer than what has been read of the source.
  fun_induction url u literal s with
  | case1 => exact blamesIn_ok _
  | case2 u literal rest glued =>
    exact blamesIn_throw (within_of_length .paramInsideSegment (by omega)
      (List.length_pos_iff.mpr glued) (by omega))
  | case3 u literal rest _ e failed =>
    have blamed := blamesIn_pathParam (List.cons_ne_nil leftAngle rest) e failed
    exact blamesIn_throw (blamed.mono inside)
  | case4 u literal rest _ _ tail =>
    exact blamesIn_between .paramInsideSegment inside (List.cons_ne_nil _ rest) tail
  | case5 u literal rest _ d tail _ _ read =>
    obtain ⟨text, split, written⟩ := text_of_pathParam read
    obtain ⟨named, occurs⟩ := written.name_occurs
    have here : d.name.Sublist (leftAngle :: rest) := by
      rw [split]
      exact occurs.trans (List.sublist_append_left text tail)
    exact blamesIn_throw (.text inside named here (by decide +kernel))
  | case6 u literal rest _ d tail _ _ read _ ih =>
    obtain ⟨text, split, -⟩ := text_of_pathParam read
    have later : tail <:+ source := .trans ⟨text, split.symm⟩ inside
    exact ih later (by simpa using later.length_le)
  | case7 u literal b rest _ _ ih =>
    have later := (List.tail_suffix rest).trans ((List.suffix_cons b rest).trans inside)
    refine ih later ?_
    simp only [List.length_append, List.length_cons, List.length_nil, List.length_tail] at begun ⊢
    omega
  | case8 u literal rest => exact blamesIn_ok _
  | case9 u literal rest _ _ _ ih =>
    have later := (List.suffix_cons slash rest).trans inside
    exact ih later (by simpa using later.length_le)
  | case10 u literal b rest _ _ _ _ ih =>
    refine ih ((List.suffix_cons b rest).trans inside) ?_
    simp only [List.length_append, List.length_cons, List.length_nil] at begun ⊢
    omega

theorem suffix_of_url {source : Bytes} {u : Url} (h : url {} [] source = .ok u) :
    u.query.getD [] <:+ source := by
  obtain ⟨pieces, -, split, -⟩ := reads_of_url h rfl .nil
  rw [List.nil_append] at split
  rw [split, Url.tail]
  cases u.query with
  | none => exact List.nil_suffix
  | some rest => exact (List.suffix_cons question rest).trans (List.suffix_append ..)

theorem blamesIn_scan (source : Bytes) : (scan source).BlamesIn source := by
  have start : ([] : Bytes).length + source.length ≤ source.length := by simp
  refine (blamesIn_url List.suffix_rfl start).bind fun u read => ?_
  exact ((blamesIn_query ∅ _).mono (suffix_of_url read)).bind fun _ _ => blamesIn_ok _

theorem errors_point_into_source {source : Bytes} {e : TemplateError}
    (h : parse source = .error e) : e.PointsInto source := by
  rw [parse] at h
  cases scanned : scan source with
  | error b =>
    rw [scanned] at h
    cases h
    exact (blamesIn_scan source b scanned).pointsInto
  | ok t =>
    rw [scanned] at h
    cases h

theorem errors_point_into_source_gap :
    parse (ascii "/a?sort=as c") = .error ⟨.unknownType, ascii "asc", 8⟩ ∧
      (ascii "asc").Sublist ((ascii "/a?sort=as c").drop 8) ∧
      parse (ascii "/a?tags=(x||y)") = .error ⟨.emptyListEntry, ascii "(x||", 8⟩ ∧
      ascii "(x||" = ((ascii "/a?tags=(x||y)").drop 8).take 4 := by
  have unknown : parse (ascii "/a?sort=as c") = .error ⟨.unknownType, ascii "asc", 8⟩ := by
    decide +kernel
  have empty : parse (ascii "/a?tags=(x||y)") = .error ⟨.emptyListEntry, ascii "(x||", 8⟩ := by
    decide +kernel
  exact ⟨unknown, (errors_point_into_source unknown).occurs, empty,
    (errors_point_into_source empty).verbatim (by decide +kernel)⟩

end Template

end HttpRouting
