import HttpRouting.Proofs.TypeParts

namespace HttpRouting

open Byte Bytes Template

namespace Descriptor

structure WellFormed (d : Descriptor) : Prop where
  named : d.name ≠ []
  typed : d.types ≠ []
  distinct : d.types.Nodup
  regex : .regex ∈ d.types → d.types = [.regex] ∧ d.pattern.isSome
  compiled : ∀ p ∈ d.pattern, Pattern.compile? p.source = some p
  patternless : d.pattern = none → d.patternSource = []
  choices : ∀ c ∈ d.choices, ListEntry c ∧ ParamType.ofName? c = none

structure Single (d : Descriptor) : Prop where
  typed : ∃ t, d.types = [t]
  choices : d.choices = []
  isArray : d.isArray = false
  isOptional : d.isOptional = false

theorem patternSource_of_none {d : Descriptor} (none : d.pattern = none) :
    d.patternSource = [] := by
  rw [patternSource, none]
  rfl

end Descriptor

namespace Template

def paramNames (segments : List Segment) : List Bytes :=
  segments.filterMap fun
    | .literal _ => none
    | .param name => some name

structure WellFormed (t : Template) : Prop where
  distinct : (paramNames t.segments).Nodup
  declared : ∀ name, name ∈ paramNames t.segments ↔ name ∈ t.pathParams.keys
  literals : ∀ text, .literal text ∈ t.segments → text ≠ [] ∧ slash ∉ text ∧ leftAngle ∉ text
  pathParams : ∀ name d, t.pathParams.find? name = some d →
    d.name = name ∧ d.WellFormed ∧ d.Single
  queryParams : ∀ name d, t.queryParams.find? name = some d → d.name = name ∧ d.WellFormed

section

variable {pieces : List Piece}

theorem segmentsOf_cons (p : Piece) (pieces : List Piece) :
    segmentsOf (p :: pieces) = p.segments ++ segmentsOf pieces := List.flatMap_cons

theorem paramsOf_cons (p : Piece) (pieces : List Piece) :
    paramsOf (p :: pieces) = p.params ++ paramsOf pieces := List.flatMap_cons

theorem paramNames_segmentsOf (pieces : List Piece) :
    paramNames (segmentsOf pieces) = (paramsOf pieces).map (·.1) := by
  induction pieces with
  | nil => rfl
  | cons p pieces ih =>
    have own : paramNames p.segments = p.params.map (·.1) := by
      cases p with
      | literal text =>
        rw [Piece.segments]
        split <;> rfl
      | param text d => rfl
    rw [segmentsOf_cons, paramsOf_cons, List.map_append, ← own, ← ih]
    exact List.filterMap_append

theorem mem_of_mem_unescape {b : UInt8} {s : Bytes} (h : b ∈ unescape s) : b ∈ s := by
  induction s with
  | nil => exact h
  | cons c s ih =>
    rw [unescape] at h
    split at h
    · exact List.mem_cons_of_mem c (ih h)
    · exact (List.mem_cons.mp h).elim (· ▸ List.mem_cons_self) fun h =>
        List.mem_cons_of_mem c (ih h)

theorem literal_segmentsOf (written : ∀ p ∈ pieces, p.Written) {text : Bytes}
    (h : .literal text ∈ segmentsOf pieces) : text ≠ [] ∧ slash ∉ text ∧ leftAngle ∉ text := by
  obtain ⟨p, hp, listed⟩ := List.mem_flatMap.mp h
  have written := written p hp
  cases p with
  | literal source =>
    rw [Piece.segments] at listed
    split at listed
    · cases listed
    · rename_i full
      cases List.mem_singleton.mp listed
      refine ⟨mt unescape_eq_nil_iff.mp full, ?_, ?_⟩
      · exact fun inside => (written : Literal _).no_slash (mem_of_mem_unescape inside)
      · exact fun inside => (written : Literal _).no_angle (mem_of_mem_unescape inside)
  | param source d => cases List.mem_singleton.mp listed

end

theorem source_of_parse {source : Bytes} {t : Template} (h : parse source = .ok t) :
    t.source = source := by
  obtain ⟨u, queryParams, -, -, rfl⟩ := scan_eq_ok_iff.mp (parse_eq_ok_iff.mp h)
  rfl

theorem literal_of_parse {source : Bytes} {t : Template} (h : parse source = .ok t) {text : Bytes}
    (listed : .literal text ∈ t.segments) : text ≠ [] ∧ slash ∉ text ∧ leftAngle ∉ text := by
  obtain ⟨pieces, -, reads, -⟩ := pieces_of_parse h
  obtain ⟨written, -, -, same⟩ := Url.reads_iff.mp reads
  have segments : t.segments = segmentsOf pieces := congrArg Url.segments same
  rw [segments] at listed
  exact literal_segmentsOf written listed

theorem compile?_source {source : Bytes} {p : Pattern} (h : Pattern.compile? source = some p) :
    Pattern.compile? p.source = some p := by
  obtain ⟨node, -, rfl⟩ := Option.map_eq_some_iff.mp h
  exact h

section

variable {s rest : Bytes} {d : Descriptor}

theorem ParamText.wellFormed {text : Bytes} (h : ParamText text d) : d.WellFormed ∧ d.Single := by
  obtain ⟨left, named, letters, right, typed⟩ := h
  -- A path parameter has one type, which is a regex just if there is a pattern.
  cases typed with
  | omitted =>
    refine ⟨⟨named, nofun, List.pairwise_singleton _ _, ?_, nofun, fun _ => rfl, nofun⟩, ?_⟩
    · exact fun regex => nomatch List.mem_singleton.mp regex
    · exact ⟨⟨_, rfl⟩, rfl, rfl, rfl⟩
  | named nameable =>
    refine ⟨⟨named, nofun, List.pairwise_singleton _ _, ?_, nofun, fun _ => rfl, nofun⟩, ?_⟩
    · exact fun regex => absurd (List.mem_singleton.mp regex).symm nameable
    · exact ⟨⟨_, rfl⟩, rfl, rfl, rfl⟩
  | pattern nested compiled =>
    refine ⟨⟨named, nofun, List.pairwise_singleton _ _, fun _ => ⟨rfl, rfl⟩, ?_, nofun, nofun⟩, ?_⟩
    · rintro p ⟨⟩
      exact compile?_source compiled
    · exact ⟨⟨_, rfl⟩, rfl, rfl, rfl⟩

theorem queryPattern_eq_ok {name : Bytes} (h : queryPattern { name } s = .ok (d, rest)) :
    ∃ pattern, d = { name, pattern } ∧ ∀ p ∈ pattern, Pattern.compile? p.source = some p := by
  rw [queryPattern] at h
  split at h
  · obtain ⟨⟨p, tail⟩, scanned, same⟩ := Scan.bind_eq_ok.mp h
    cases same
    obtain ⟨source, -, -, compiled⟩ := braced_eq_ok_iff.mp scanned
    refine ⟨some p, rfl, ?_⟩
    rintro p ⟨⟩
    exact compile?_source compiled
  · cases h
    refine ⟨none, rfl, ?_⟩
    rintro p ⟨⟩

theorem Gathered.withDefaultType {name : Bytes} {pattern : Option Pattern}
    (h : Gathered name pattern d) (named : name ≠ [])
    (compiled : ∀ p ∈ pattern, Pattern.compile? p.source = some p) :
    (withDefaultType d).WellFormed := by
  obtain ⟨rfl, rfl, distinct, nameable, choices⟩ := h
  rw [Template.withDefaultType]
  split
  · rename_i typeless
    have added (t : ParamType) : d.addType t = { d with types := [t] } := by
      rw [Descriptor.addType, Descriptor.hasType, typeless]
      rfl
    rw [added]
    refine ⟨named, List.cons_ne_nil _ _, List.pairwise_singleton _ _, fun regex => ?_, compiled,
      Descriptor.patternSource_of_none, choices⟩
    split at regex
    · rename_i patterned
      exact ⟨by simp [patterned], patterned⟩
    · cases List.mem_singleton.mp regex
  · rename_i typed
    exact ⟨named, typed, distinct, fun regex => absurd regex nameable, compiled,
      Descriptor.patternSource_of_none, choices⟩

theorem queryParam_wellFormed (h : queryParam s = .ok (d, rest)) : d.WellFormed := by
  rw [queryParam] at h
  split at h
  · cases h
  · rename_i named
    split at h
    · cases h
    · obtain ⟨⟨d', left⟩, patterned, h⟩ := Scan.bind_eq_ok.mp h
      obtain ⟨⟨e, left'⟩, typed, same⟩ := Scan.bind_eq_ok.mp h
      cases same
      obtain ⟨pattern, rfl, compiled⟩ := queryPattern_eq_ok patterned
      exact ((Gathered.start _ _).typePart typed).withDefaultType named compiled

theorem Declares.wellFormed {ds : List Descriptor} (h : Declares s ds) :
    ∀ d ∈ ds, d.WellFormed := by
  induction h with
  | done => exact nofun
  | separator _ _ ih => exact ih
  | param _ _ read _ ih => exact List.forall_mem_cons.mpr ⟨queryParam_wellFormed read, ih⟩

theorem query_wellFormed {params : Params} (h : query ∅ s = .ok params) {name : Bytes}
    (found : params.find? name = some d) : d.name = name ∧ d.WellFormed := by
  obtain ⟨ds, declares, -, -, rfl⟩ := declares_of_query h
  rw [Dictionary.find?_insertAll, Dictionary.find?_empty, Option.or_none] at found
  obtain ⟨listed, named⟩ := mem_byName_iff.mp (mem_of_latest found)
  exact ⟨named, declares.wellFormed d listed⟩

end

theorem parse_wellFormed {source : Bytes} {t : Template} (h : parse source = .ok t) :
    t.source = source ∧
      (source = t.urlPath ∧ t.queryPath = [] ∨ source = t.urlPath ++ question :: t.queryPath) ∧
      t.WellFormed := by
  obtain ⟨pieces, -, reads, -, queried, split⟩ := pieces_of_parse h
  obtain ⟨written, distinct, -, same⟩ := Url.reads_iff.mp reads
  have segments : t.segments = segmentsOf pieces := congrArg Url.segments same
  have params : t.pathParams = Dictionary.ofList (paramsOf pieces) := congrArg Url.params same
  have names : paramNames t.segments = (paramsOf pieces).map (·.1) := by
    rw [segments, paramNames_segmentsOf]
  refine ⟨source_of_parse h, split, ?_⟩
  constructor
  · rwa [names]
  · intro name
    rw [names, params, Dictionary.mem_keys_ofList_iff]
  · exact fun text listed => literal_of_parse h listed
  · intro name d found
    rw [params, Dictionary.find?_ofList] at found
    obtain ⟨text, hp, named⟩ := mem_paramsOf_iff.mp (mem_of_latest found)
    exact ⟨named, ParamText.wellFormed (written _ hp)⟩
  · intro name d found
    exact query_wellFormed queried found

def untidySource : Bytes :=
  ascii "/a\\?/<id : number>?sort= number(asc| desc |number)? []?&code=\x7b^\\?\x7b2\x7d$\x7d"

theorem parse_wellFormed_untidy :
    ∃ t d, parse untidySource = .ok t ∧ t.source = untidySource ∧ t.WellFormed ∧
      t.queryParams.find? (ascii "sort") = some d ∧ d.WellFormed ∧
      d.types = [.number] ∧ d.choices = [ascii "asc", ascii "desc"] := by
  have shown : ((parse untidySource).toOption.bind fun t => t.queryParams.find? (ascii "sort")).map
      (fun d => (d.types, d.choices)) = some ([.number], [ascii "asc", ascii "desc"]) := by
    decide +kernel
  cases parsed : parse untidySource with
  | error e =>
    rw [parsed] at shown
    cases shown
  | ok t =>
    rw [parsed] at shown
    obtain ⟨d, found, same⟩ := Option.map_eq_some_iff.mp shown
    obtain ⟨types, choices⟩ := Prod.mk.inj same
    obtain ⟨source, -, wellFormed⟩ := parse_wellFormed parsed
    exact ⟨t, d, rfl, source, wellFormed, found, (wellFormed.queryParams _ d found).2, types,
      choices⟩

end Template

end HttpRouting
