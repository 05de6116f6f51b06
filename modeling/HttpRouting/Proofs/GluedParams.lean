import HttpRouting.Proofs.UrlTemplates

namespace HttpRouting

open Byte Bytes

@[simp] theorem Blame.fault_between (fault : TemplateFault) (start stop : Bytes) :
    (between fault start stop).fault = fault := rfl

@[simp] theorem Blame.fault_quoting (fault : TemplateFault) (start text : Bytes) :
    (quoting fault start text).fault = fault := rfl

namespace Scan

variable {α β : Type} {fault : TemplateFault}

def Avoids (fault : TemplateFault) (x : Scan α) : Prop := ∀ b, x = .error b → b.fault ≠ fault

theorem avoids_ok (a : α) : Avoids fault (.ok a) := nofun

theorem avoids_throw {b : Blame} (other : b.fault ≠ fault) : Avoids fault (throw b : Scan α) := by
  rintro _ ⟨⟩
  exact other

theorem Avoids.bind {x : Scan α} {f : α → Scan β} (h : x.Avoids fault)
    (h' : ∀ a, (f a).Avoids fault) : (x >>= f).Avoids fault := by
  cases x with
  | error b =>
    rintro _ ⟨⟩
    exact h b rfl
  | ok a => exact h' a

end Scan

open Scan

namespace Template

section

variable (start s : Bytes) (d : Descriptor)

theorem braced_avoids : (braced start).Avoids .paramInsideSegment := by
  rw [braced]
  split
  · exact avoids_throw (by simp)
  · split
    · exact avoids_throw (by simp)
    · exact avoids_ok _

theorem namedType_avoids : (namedType start d s).Avoids .paramInsideSegment := by
  simp only [namedType]
  split
  · exact avoids_throw (by simp)
  · split
    · exact avoids_ok _
    · exact avoids_throw (by simp)

theorem declaration_avoids : (declaration start d s).Avoids .paramInsideSegment := by
  rw [declaration]
  split
  · exact avoids_throw (by simp)
  · split
    · exact (braced_avoids s).bind fun _ => avoids_ok _
    · exact namedType_avoids start s d

theorem typed_avoids : (typed start d s).Avoids .paramInsideSegment := by
  rw [typed]
  split
  · exact avoids_ok _
  · apply (declaration_avoids start _ d).bind
    rintro ⟨e, left⟩
    dsimp only
    split
    · exact avoids_throw (by simp)
    · exact avoids_ok _

theorem pathParam_avoids : (pathParam start).Avoids .paramInsideSegment := by
  simp only [pathParam]
  split
  · exact avoids_throw (by simp)
  · split
    · exact avoids_throw (by simp)
    · apply (typed_avoids start _ _).bind
      rintro ⟨e, left⟩
      dsimp only
      split
      · exact avoids_ok _
      · exact avoids_throw (by simp)

theorem addNamed_avoids (text : Bytes) : (addNamed d start text).Avoids .paramInsideSegment := by
  rw [addNamed]
  split
  · exact avoids_ok _
  · split
    · exact avoids_ok _
    · exact avoids_throw (by simp)

theorem addEntry_avoids (entry rest : Bytes) :
    (addEntry d start entry rest).Avoids .paramInsideSegment := by
  simp only [addEntry]
  split
  · exact avoids_throw (by simp)
  · split <;> exact avoids_ok _

theorem typePart_avoids (part : TypePart) : (typePart d part s).Avoids .paramInsideSegment := by
  induction s generalizing d part with
  | nil =>
    cases part with
    | name start text => exact (addNamed_avoids start d text).bind fun _ => avoids_ok _
    | array start => exact avoids_throw (by simp)
    | list start entry => exact avoids_throw (by simp)
  | cons b s ih =>
    cases part with
    | name start text =>
      have named := addNamed_avoids start d text
      rw [typePart]
      split
      · exact named.bind fun _ => avoids_ok _
      · split
        · exact ih _ _
        · split
          · exact named.bind fun _ => ih _ _
          · split
            · exact named.bind fun _ => ih _ _
            · split
              · exact named.bind fun _ => ih _ _
              · exact ih _ _
    | array start =>
      rw [typePart]
      split
      · exact ih _ _
      · exact avoids_throw (by simp)
    | list start entry =>
      have added := addEntry_avoids start d entry s
      rw [typePart]
      split
      · exact avoids_throw (by simp)
      · split
        · exact added.bind fun _ => ih _ _
        · split
          · exact added.bind fun _ => ih _ _
          · exact ih _ _

theorem queryParam_avoids : (queryParam start).Avoids .paramInsideSegment := by
  simp only [queryParam]
  split
  · exact avoids_throw (by simp)
  · split
    · exact avoids_throw (by simp)
    · refine Avoids.bind ?_ fun _ => (typePart_avoids _ _ _).bind fun _ => avoids_ok _
      rw [queryPattern]
      split
      · exact (braced_avoids _).bind fun _ => avoids_ok _
      · exact avoids_ok _

theorem query_avoids (params : Params) : (query params s).Avoids .paramInsideSegment := by
  fun_induction query params s with
  | case1 => exact avoids_ok _
  | case2 _ _ _ _ _ ih => exact ih
  | case3 _ _ b rest _ _ _ e failed => exact avoids_throw (queryParam_avoids _ e failed)
  | case4 => exact avoids_throw (by simp)
  | case5 _ _ _ _ _ _ _ _ _ _ _ _ ih => exact ih

end

/-- A bracket opens after literal text of its segment, and what is before the segment is a URL. -/
structure Glued (source before text rest : Bytes) : Prop where
  split : source = before ++ (text ++ leftAngle :: rest)
  readable : ∃ pieces, Spells pieces before
  begins : before = [] ∨ before.getLast? = some slash
  literal : Literal text
  full : text ≠ []

theorem length_unescape {s : Bytes} (h : Literal s) :
    (unescape s).length + s.count question = s.length := by
  have decodes := h.decodes
  generalize unescape s = t at decodes
  induction decodes with
  | nil => rfl
  | mark rest ih =>
    have shorter := ih rest.literal.1
    rw [List.count_cons_of_ne (by decide), List.count_cons_self, List.length_cons,
      List.length_cons, List.length_cons]
    omega
  | byte plain _ rest ih =>
    have shorter := ih rest.literal.1
    rw [List.count_cons_of_ne (Ne.symm plain.2.2.symm), List.length_cons, List.length_cons]
    omega

theorem joined_snoc {pieces : List Piece} (some : pieces ≠ []) :
    joined (pieces ++ [.literal []]) = joined pieces ++ [slash] :=
  joined_append some [.literal []]

theorem url_before {u u' : Url} {pieces : List Piece} (h : u.Reads pieces u')
    (begins : joined pieces = [] ∨ (joined pieces).getLast? = some slash) (rest : Bytes) :
    ∃ u', url u [] (joined pieces ++ rest) = url u' [] rest := by
  induction h with
  | nil u => exact ⟨u, rfl⟩
  | @cons u u' p pieces written fresh _ ih =>
    cases pieces with
    | nil =>
      rw [joined_singleton] at begins ⊢
      cases p with
      | literal text =>
        rcases begins with none | last
        · exact ⟨u, by rw [none]; rfl⟩
        · exact absurd (List.mem_of_getLast? last) (written : Literal text).no_slash
      | param text d =>
        exfalso
        obtain ⟨left, named, letters, right, typed⟩ := (written : ParamText text d)
        rcases begins with none | last
        · simp [Piece.text] at none
        · rw [Piece.text, List.getLast?_concat] at last
          cases last
    | cons q pieces =>
      rw [joined_cons (List.cons_ne_nil _ _)] at begins ⊢
      have later : joined (q :: pieces) = [] ∨ (joined (q :: pieces)).getLast? = some slash := by
        refine Classical.or_iff_not_imp_left.mpr fun full => ?_
        have last := begins.resolve_left (by simp)
        rw [List.getLast?_append, List.getLast?_cons] at last
        obtain ⟨b, hb⟩ := Option.ne_none_iff_exists'.mp (mt List.getLast?_eq_none_iff.mp full)
        rw [hb] at last ⊢
        exact last
      obtain ⟨u'', read⟩ := ih later
      refine ⟨u'', ?_⟩
      rw [List.append_assoc, List.cons_append, (url_piece _ written fresh).2, read]

section

variable {source before text rest : Bytes}

theorem Glued.scan_eq (h : Glued source before text rest) :
    scan source = .error ⟨.paramInsideSegment,
      (leftAngle :: rest).length + (unescape text).length, .span (unescape text).length⟩ := by
  obtain ⟨pieces, spells⟩ := h.readable
  obtain ⟨u, read⟩ := url_before spells.reads (spells.joins ▸ h.begins) (text ++ leftAngle :: rest)
  have begun : url u [] (text ++ leftAngle :: rest) = url u (unescape text) (leftAngle :: rest) :=
    url_decodes _ h.literal.decodes (by simp; decide)
  have full : unescape text ≠ [] := mt unescape_eq_nil_iff.mp h.full
  rw [scan, h.split, spells.joins, read, begun, url, if_pos rfl, if_pos full]
  rfl

theorem Glued.parse_eq (h : Glued source before text rest) :
    parse source = .error ⟨.paramInsideSegment, text.drop (text.count question),
      before.length + text.count question⟩ := by
  -- The bytes by which the text has become shorter are missing at its beginning.
  have length := length_unescape h.literal
  have place : source.length - ((leftAngle :: rest).length + (unescape text).length) =
      before.length + text.count question := by
    rw [h.split, List.length_append, List.length_append]
    omega
  have quoted : (source.drop (before.length + text.count question)).take
      (unescape text).length = text.drop (text.count question) := by
    rw [h.split, List.drop_length_add_append, List.drop_append_of_le_length (by omega)]
    exact List.take_left' (by rw [List.length_drop]; omega)
  rw [parse, h.scan_eq]
  refine congrArg Except.error ?_
  simp only [Blame.locate, place, quoted]

end

theorem glued_of_url {u : Url} {literal s begun : Bytes} {b : Blame}
    (h : url u literal s = .error b) (inside : b.fault = .paramInsideSegment)
    (decodes : Decodes begun literal) :
    (∃ inner tail, leftAngle :: inner <:+ s ∧
        b = .between .paramInsideSegment (leftAngle :: inner) tail) ∨
      ∃ pieces u' text rest, u.Reads pieces u' ∧
        begun ++ s = joined (pieces ++ [.literal []]) ++ (text ++ leftAngle :: rest) ∧
        Literal text ∧ text ≠ [] := by
  obtain ⟨written, same⟩ := decodes.literal
  fun_induction url u literal s generalizing begun with
  | case1 => cases h
  | case2 u literal rest glued =>
    right
    have full : begun ≠ [] := by
      rintro rfl
      exact glued same
    exact ⟨[], u, begun, rest, .nil u, rfl, written, full⟩
  | case3 u literal rest _ e failed =>
    cases h
    exact absurd inside (pathParam_avoids _ _ failed)
  | case4 u literal rest _ _ tail =>
    cases h
    exact .inl ⟨rest, tail, List.suffix_rfl, rfl⟩
  | case5 =>
    cases h
    cases inside
  | case6 u literal rest whole d tail next fresh read _ ih =>
    rw [same, ne_eq, Decidable.not_not, unescape_eq_nil_iff] at whole
    subst whole
    obtain ⟨text, split, param⟩ := pathParam_eq_ok_iff.mp read
    rw [Bool.not_eq_true] at next fresh
    rcases ih h .nil literal_nil rfl with ⟨inner, stop, suffix, eq⟩ | found
    · exact .inl ⟨inner, stop, suffix.trans ⟨text, split.symm⟩, eq⟩
    · right
      obtain ⟨pieces, u', glued, rest', reads, joins, literal, full⟩ := found
      rw [List.nil_append] at joins
      cases pieces with
      | nil =>
        exfalso
        have first : Piece.literal glued = .literal [] := by
          rw [joins] at next
          have first : (joined [.literal glued] ++ leftAngle :: rest').head?.any
              (fun b => b != slash && b != question) = false := by rwa [joined_singleton]
          exact eq_blank_of_head literal first
        exact full (Piece.literal.inj first)
      | cons p pieces =>
        obtain ⟨written', -, reads⟩ := Url.reads_cons_iff.mp reads
        obtain rfl : p = .literal [] := by
          rw [joins, List.cons_append] at next
          exact eq_blank_of_head written' next
        refine ⟨.param text d :: pieces, u', glued, rest', .cons param ?_ reads, ?_, literal,
          full⟩
        · intro e he
          rw [List.mem_singleton.mp he]
          exact fresh
        · have start :=
            joined_append (List.cons_ne_nil (.param text d) []) (pieces ++ [.literal []])
          rw [List.singleton_append, joined_singleton] at start
          rw [List.cons_append, start, List.append_assoc, ← List.cons_append, ← joins, split]
          rfl
  | case7 u literal b rest _ mark ih =>
    rw [Bool.and_eq_true, decide_eq_true_eq, decide_eq_true_eq] at mark
    obtain ⟨rfl, first⟩ := mark
    obtain ⟨rest, rfl⟩ := List.head?_eq_some_iff.mp first
    have decodes := decodes.append (.mark .nil) (by decide)
    rcases ih h decodes decodes.literal.1 decodes.literal.2 with
      ⟨inner, stop, suffix, eq⟩ | ⟨pieces, u', text, rest', reads, joins, found⟩
    · have later : rest <:+ backslash :: question :: rest := ⟨[backslash, question], rfl⟩
      exact .inl ⟨inner, stop, suffix.trans later, eq⟩
    · exact .inr ⟨pieces, u', text, rest', reads, by rw [← joins]; simp, found⟩
  | case8 => cases h
  | case9 u literal rest _ _ _ ih =>
    rcases ih h .nil literal_nil rfl with
      ⟨inner, stop, suffix, eq⟩ | ⟨pieces, u', text, rest', reads, joins, found⟩
    · exact .inl ⟨inner, stop, suffix.trans (List.suffix_cons slash rest), eq⟩
    · refine .inr ⟨.literal begun :: pieces, u', text, rest', ?_, ?_, found⟩
      · refine .cons written (u.fresh_literal begun) ?_
        rw [Url.add, ← same]
        exact reads
      · rw [List.cons_append, joined_cons (by simp), List.append_assoc, List.cons_append, ← joins]
        rfl
  | case10 u literal b rest noAngle noMark noQuestion noSlash ih =>
    have plain : Decodes [b] [b] := .byte ⟨noSlash, noAngle, noQuestion⟩ (by simp) .nil
    have decodes := decodes.append plain (by simpa using noQuestion)
    rcases ih h decodes decodes.literal.1 decodes.literal.2 with
      ⟨inner, stop, suffix, eq⟩ | ⟨pieces, u', text, rest', reads, joins, found⟩
    · exact .inl ⟨inner, stop, suffix.trans (List.suffix_cons b rest), eq⟩
    · exact .inr ⟨pieces, u', text, rest', reads, by rw [← joins]; simp, found⟩

theorem spells_snoc {u : Url} {pieces : List Piece} (h : ({} : Url).Reads pieces u) :
    Spells (pieces ++ [.literal []]) (joined (pieces ++ [.literal []])) := by
  obtain ⟨written, distinct, -, -⟩ := Url.reads_iff.mp h
  refine ⟨rfl, List.forall_mem_append.mpr ⟨written, ?_⟩, ?_⟩
  · exact List.forall_mem_singleton.mpr literal_nil
  · have same : paramsOf (pieces ++ [.literal []]) = paramsOf pieces := by
      simp [paramsOf, Piece.params]
    rwa [same]

theorem glued_of_parse {source : Bytes} {e : TemplateError} (h : parse source = .error e)
    (inside : e.fault = .paramInsideSegment) (unquoted : leftAngle ∉ e.fragment) :
    ∃ before text rest, Glued source before text rest := by
  rw [parse, scan] at h
  cases read : url {} [] source with
  | ok u =>
    rw [read] at h
    cases declared : query ∅ (u.query.getD []) with
    | ok params =>
      simp only [bind, Except.bind, declared] at h
      cases h
    | error b =>
      simp only [bind, Except.bind, declared] at h
      cases h
      exact absurd inside (query_avoids _ _ b declared)
  | error b =>
    rw [read] at h
    cases h
    rcases glued_of_url read inside .nil with
      ⟨inner, tail, suffix, rfl⟩ | ⟨pieces, u', text, rest, reads, joins, literal, full⟩
    · exfalso
      have place := (List.suffix_iff_eq_drop.mp suffix).symm
      refine unquoted ?_
      simp only [Blame.locate, Blame.between, place]
      rw [List.take_cons (by omega)]
      exact List.mem_cons_self
    · refine ⟨_, text, rest, joins, ⟨_, spells_snoc reads⟩, ?_, literal, full⟩
      by_cases none : pieces = []
      · exact .inl (by rw [none]; rfl)
      · exact .inr (by rw [joined_snoc none, List.getLast?_concat])

theorem glued_reported_iff (source : Bytes) :
    ((∃ e, parse source = .error e ∧ e.fault = .paramInsideSegment ∧ leftAngle ∉ e.fragment) ↔
        ∃ before text rest, Glued source before text rest) ∧
      ∀ before text rest, Glued source before text rest →
        ∃ e, parse source = .error e ∧ e.fault = .paramInsideSegment ∧
          ((e.position = before.length ∧ e.fragment = text) ↔ question ∉ text) := by
  refine ⟨⟨?_, ?_⟩, fun before text rest glued => ⟨_, glued.parse_eq, rfl, ?_⟩⟩
  · rintro ⟨e, rejected, inside, unquoted⟩
    exact glued_of_parse rejected inside unquoted
  · rintro ⟨before, text, rest, glued⟩
    refine ⟨_, glued.parse_eq, rfl, fun quoted => ?_⟩
    exact glued.literal.no_angle (List.mem_of_mem_drop quoted)
  · rw [← List.count_eq_zero]
    constructor
    · rintro ⟨place, -⟩
      dsimp only at place
      omega
    · intro none
      rw [none]
      exact ⟨rfl, rfl⟩

theorem readable_of_parse {before : Bytes} {t : Template} (h : parse before = .ok t)
    (whole : t.urlPath = before) : ∃ pieces, Spells pieces before := by
  obtain ⟨pieces, -, reads, joins, -⟩ := pieces_of_parse h
  obtain ⟨written, distinct, -, -⟩ := Url.reads_iff.mp reads
  exact ⟨pieces, whole.symm.trans joins, written, distinct⟩

theorem glued_reported_iff_later :
    Glued (ascii "/a\\?b/c<id>") (ascii "/a\\?b/") (ascii "c") (ascii "id>") ∧
      ∃ e, parse (ascii "/a\\?b/c<id>") = .error e ∧ e.position = 6 ∧ e.fragment = ascii "c" := by
  have before : (parse (ascii "/a\\?b/")).toOption.map (·.urlPath) = some (ascii "/a\\?b/") := by
    decide +kernel
  have glued : Glued (ascii "/a\\?b/c<id>") (ascii "/a\\?b/") (ascii "c") (ascii "id>") := {
    split := by decide
    readable := by
      cases parsed : parse (ascii "/a\\?b/") with
      | error e =>
        rw [parsed] at before
        cases before
      | ok t =>
        rw [parsed] at before
        exact readable_of_parse parsed (Option.some.inj before)
    begins := by decide
    literal := (Decodes.byte (by decide) (by decide) .nil).literal.1
    full := by decide }
  obtain ⟨e, rejected, -, place⟩ := (glued_reported_iff _).2 _ _ _ glued
  obtain ⟨position, fragment⟩ := place.mpr (by decide)
  exact ⟨glued, e, rejected, position, fragment⟩

theorem glued_param_misplaced :
    Glued (ascii "/a\\?b<x>") (ascii "/") (ascii "a\\?b") (ascii "x>") ∧
      parse (ascii "/a\\?b<x>") = .error ⟨.paramInsideSegment, ascii "\\?b", 2⟩ ∧
      ¬(2 = (ascii "/").length ∧ ascii "\\?b" = ascii "a\\?b") := by
  have glued : Glued (ascii "/a\\?b<x>") (ascii "/") (ascii "a\\?b") (ascii "x>") := {
    split := by decide
    readable := by
      refine ⟨[.literal [], .literal []], rfl, ?_, List.nodup_nil⟩
      exact List.forall_mem_cons.mpr ⟨literal_nil, List.forall_mem_singleton.mpr literal_nil⟩
    begins := by decide
    literal := (Decodes.byte (by decide) (by decide)
      (.mark (.byte (by decide) (by decide) .nil))).literal.1
    full := by decide }
  exact ⟨glued, glued.parse_eq, by decide⟩

end Template

end HttpRouting
