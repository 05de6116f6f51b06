import HttpRouting.Dictionary.Latest
import HttpRouting.Proofs.ParamText
import HttpRouting.Proofs.Templates

namespace HttpRouting

open Byte Bytes

namespace Template

structure Literal (s : Bytes) : Prop where
  no_slash : slash ∉ s
  no_angle : leftAngle ∉ s
  escaped : ∀ before after, s = before ++ question :: after → before.getLast? = some backslash

def unescape : Bytes → Bytes
  | [] => []
  | b :: s => if b = backslash ∧ s.head? = some question then unescape s else b :: unescape s

theorem literal_nil : Literal [] where
  no_slash := List.not_mem_nil
  no_angle := List.not_mem_nil
  escaped before after split := by simp at split

theorem Literal.head_ne {s : Bytes} (h : Literal s) : s.head? ≠ some question := by
  intro first
  obtain ⟨after, rfl⟩ := List.head?_eq_some_iff.mp first
  cases h.escaped [] after rfl

theorem literal_cons_iff {b : UInt8} {s : Bytes}
    (noMark : ¬ (b = backslash ∧ s.head? = some question)) :
    Literal (b :: s) ↔ (b ≠ slash ∧ b ≠ leftAngle ∧ b ≠ question) ∧ Literal s := by
  constructor
  · intro h
    obtain ⟨slashless, angleless⟩ := And.intro h.no_slash h.no_angle
    rw [List.mem_cons, not_or] at slashless angleless
    refine ⟨⟨Ne.symm slashless.1, Ne.symm angleless.1, ?_⟩, slashless.2, angleless.2, ?_⟩
    · rintro rfl
      exact h.head_ne rfl
    · rintro before after rfl
      have last := h.escaped (b :: before) after rfl
      cases before with
      | nil => exact absurd ⟨Option.some.inj last, rfl⟩ noMark
      | cons c before => rwa [List.getLast?_cons_cons] at last
  · rintro ⟨⟨noSlash, noAngle, noQuestion⟩, h⟩
    refine ⟨?_, ?_, fun before after split => ?_⟩
    · rw [List.mem_cons, not_or]
      exact ⟨Ne.symm noSlash, h.no_slash⟩
    · rw [List.mem_cons, not_or]
      exact ⟨Ne.symm noAngle, h.no_angle⟩
    · cases before with
      | nil => exact absurd (List.cons.inj split).1 noQuestion
      | cons c before =>
        have last := h.escaped before after (List.cons.inj split).2
        rw [List.getLast?_cons, last]
        rfl

theorem literal_mark_iff {s : Bytes} : Literal (backslash :: question :: s) ↔ Literal s := by
  constructor
  · intro h
    refine ⟨fun inside => h.no_slash ?_, fun inside => h.no_angle ?_, ?_⟩
    · exact List.mem_cons_of_mem _ (List.mem_cons_of_mem _ inside)
    · exact List.mem_cons_of_mem _ (List.mem_cons_of_mem _ inside)
    · rintro before after rfl
      have last := h.escaped (backslash :: question :: before) after rfl
      cases before with
      | nil => cases last
      | cons c before => rwa [List.getLast?_cons_cons, List.getLast?_cons_cons] at last
  · intro h
    refine ⟨?_, ?_, fun before after split => ?_⟩
    · rw [List.mem_cons, List.mem_cons, not_or, not_or]
      exact ⟨by decide, by decide, h.no_slash⟩
    · rw [List.mem_cons, List.mem_cons, not_or, not_or]
      exact ⟨by decide, by decide, h.no_angle⟩
    · match before with
      | [] => cases split
      | [b] => rw [(List.cons.inj split).1, List.getLast?_singleton]
      | b :: c :: before =>
        have last := h.escaped before after (List.cons.inj (List.cons.inj split).2).2
        rw [List.getLast?_cons, List.getLast?_cons, last]
        rfl

inductive Decodes : Bytes → Bytes → Prop
  | nil : Decodes [] []
  | mark {s t : Bytes} (rest : Decodes s t) : Decodes (backslash :: question :: s) (question :: t)
  | byte {b : UInt8} {s t : Bytes} (plain : b ≠ slash ∧ b ≠ leftAngle ∧ b ≠ question)
      (noMark : ¬ (b = backslash ∧ s.head? = some question)) (rest : Decodes s t) :
      Decodes (b :: s) (b :: t)

theorem unescape_mark (s : Bytes) :
    unescape (backslash :: question :: s) = question :: unescape s := by
  have plain : ¬ (question = backslash ∧ s.head? = some question) := fun h => nomatch h.1
  rw [unescape, if_pos ⟨rfl, rfl⟩, unescape, if_neg plain]

theorem Literal.decodes {s : Bytes} (h : Literal s) : Decodes s (unescape s) := by
  -- By the length, as a mark is two bytes.
  induction size : s.length using Nat.strongRecOn generalizing s with
  | _ n ih =>
    subst size
    cases s with
    | nil => exact .nil
    | cons b s =>
      by_cases mark : b = backslash ∧ s.head? = some question
      · obtain ⟨rfl, first⟩ := mark
        obtain ⟨s, rfl⟩ := List.head?_eq_some_iff.mp first
        have shorter : s.length < (backslash :: question :: s).length :=
          Nat.lt_succ_of_lt (Nat.lt_succ_self _)
        rw [unescape_mark]
        exact .mark (ih _ shorter (literal_mark_iff.mp h) rfl)
      · obtain ⟨plain, rest⟩ := (literal_cons_iff mark).mp h
        rw [unescape, if_neg mark]
        exact .byte plain mark (ih _ (Nat.lt_succ_self _) rest rfl)

theorem Decodes.literal {s t : Bytes} (h : Decodes s t) : Literal s ∧ t = unescape s := by
  induction h with
  | nil => exact ⟨literal_nil, rfl⟩
  | mark _ ih => exact ⟨literal_mark_iff.mpr ih.1, by rw [unescape_mark, ih.2]⟩
  | byte plain noMark _ ih =>
    exact ⟨(literal_cons_iff noMark).mpr ⟨plain, ih.1⟩, by rw [unescape, if_neg noMark, ih.2]⟩

theorem Decodes.append {s t s' t' : Bytes} (h : Decodes s t) (h' : Decodes s' t')
    (first : s'.head? ≠ some question) : Decodes (s ++ s') (t ++ t') := by
  induction h with
  | nil => exact h'
  | mark _ ih => exact .mark ih
  | @byte b s t plain noMark _ ih =>
    refine .byte plain ?_ ih
    rintro ⟨rfl, mark⟩
    cases s with
    | nil => exact first mark
    | cons c s => exact noMark ⟨rfl, mark⟩

theorem unescape_eq_nil_iff {s : Bytes} : unescape s = [] ↔ s = [] := by
  induction s with
  | nil => simp [unescape]
  | cons b s ih =>
    rw [unescape]
    split
    · rename_i mark
      have full : s ≠ [] := by
        rintro rfl
        cases mark.2
      simp [ih, full]
    · simp

inductive Piece
  | literal (text : Bytes)
  | param (text : Bytes) (d : Descriptor)

namespace Piece

def text : Piece → Bytes
  | literal text => text
  | param text _ => text

def Written : Piece → Prop
  | literal text => Literal text
  | param text d => ParamText text d

def segments : Piece → List Segment
  | literal text => if text = [] then [] else [.literal (unescape text)]
  | param _ d => [.param d.name]

def params : Piece → List (Bytes × Descriptor)
  | literal _ => []
  | param _ d => [(d.name, d)]

end Piece

def joined (pieces : List Piece) : Bytes := Bytes.join "/" (pieces.map (·.text))

theorem joined_nil : joined [] = [] := rfl

theorem joined_singleton (p : Piece) : joined [p] = p.text := join_singleton "/" p.text

theorem joined_cons {p : Piece} {pieces : List Piece} (more : pieces ≠ []) :
    joined (p :: pieces) = p.text ++ slash :: joined pieces :=
  join_cons (fun none => more (List.map_eq_nil_iff.mp none)) "/" p.text

theorem ParamText.exists_cons {text : Bytes} {d : Descriptor} (h : ParamText text d) :
    ∃ inner, text = leftAngle :: inner := by
  cases h with
  | param => exact ⟨_, rfl⟩

theorem joined_append {pieces : List Piece} (some : pieces ≠ []) (more : List Piece) :
    joined (pieces ++ more) = joined pieces ++ joined (.literal [] :: more) := by
  -- Going on from a piece is as going on from an empty one, which has no text.
  induction pieces with
  | nil => exact absurd rfl some
  | cons p pieces ih =>
    cases pieces with
    | nil =>
      cases more with
      | nil => simp [joined_singleton, Piece.text]
      | cons q more =>
        rw [List.singleton_append, joined_singleton, joined_cons (List.cons_ne_nil _ _),
          joined_cons (List.cons_ne_nil _ _)]
        rfl
    | cons q pieces =>
      rw [List.cons_append, joined_cons (by simp), ih (List.cons_ne_nil _ _),
        joined_cons (List.cons_ne_nil _ _), List.append_assoc]
      rfl

theorem eq_blank_of_head {p : Piece} (written : p.Written) {pieces : List Piece} {tail : Bytes}
    (next : (joined (p :: pieces) ++ tail).head?.any (fun b => b != slash && b != question) =
      false) :
    p = .literal [] := by
  have start : joined (p :: pieces) = p.text ++ joined (.literal [] :: pieces) :=
    (joined_append (List.cons_ne_nil p []) pieces).trans (by rw [joined_singleton])
  rw [start] at next
  cases p with
  | literal text =>
    cases text with
    | nil => rfl
    | cons b text =>
      have other : b ≠ slash ∧ b ≠ question := by
        refine ⟨?_, ?_⟩
        · rintro rfl
          exact (written : Literal _).no_slash List.mem_cons_self
        · rintro rfl
          exact (written : Literal _).head_ne rfl
      simp [Piece.text, other] at next
  | param text d =>
    obtain ⟨inner, rfl⟩ := ParamText.exists_cons written
    exact absurd next (by simp [Piece.text]; decide)

namespace Url

def add (u : Url) : Piece → Url
  | .literal text => u.flush (unescape text)
  | .param _ d => u.addParam d

inductive Reads : Url → List Piece → Url → Prop
  | nil (u : Url) : Reads u [] u
  | cons {u u' : Url} {p : Piece} {pieces : List Piece} (written : p.Written)
      (fresh : ∀ e ∈ p.params, u.params.contains e.1 = false) (rest : Reads (u.add p) pieces u') :
      Reads u (p :: pieces) u'

theorem reads_cons_iff {u u' : Url} {p : Piece} {pieces : List Piece} :
    Reads u (p :: pieces) u' ↔
      p.Written ∧ (∀ e ∈ p.params, u.params.contains e.1 = false) ∧ Reads (u.add p) pieces u' := by
  constructor
  · rintro (_ | ⟨written, fresh, rest⟩)
    exact ⟨written, fresh, rest⟩
  · rintro ⟨written, fresh, rest⟩
    exact .cons written fresh rest

theorem reads_nil_iff {u u' : Url} : Reads u [] u' ↔ u' = u := by
  constructor
  · rintro ⟨⟩
    rfl
  · rintro rfl
    exact .nil _

end Url

section

variable {u u' : Url} {literal : Bytes} (rest : Bytes)

theorem url_byte {b : UInt8} (plain : b ≠ slash ∧ b ≠ leftAngle ∧ b ≠ question)
    (noMark : ¬ (b = backslash ∧ rest.head? = some question)) :
    url u literal (b :: rest) = url u (literal ++ [b]) rest := by
  have mark : (decide (b = backslash) && decide (rest.head? = some question)) = false := by
    simpa using noMark
  rw [url, if_neg plain.2.1, mark, if_neg Bool.false_ne_true, if_neg plain.2.2, if_neg plain.1]

theorem url_mark : url u literal (backslash :: question :: rest) =
    url u (literal ++ [question]) rest := by
  rw [url]
  rfl

theorem url_slash : url u literal (slash :: rest) = url (u.flush literal) [] rest := by
  rw [url]
  rfl

theorem url_nil : url u literal [] = .ok (u.flush literal) := by
  rw [url]
  rfl

theorem url_decodes {s t : Bytes} (h : Decodes s t) (first : rest.head? ≠ some question) :
    url u literal (s ++ rest) = url u (literal ++ t) rest := by
  induction h generalizing literal with
  | nil => simp
  | mark _ ih => rw [List.cons_append, List.cons_append, url_mark, ih, List.append_assoc]; rfl
  | @byte b s t plain noMark _ ih =>
    have noMark' : ¬ (b = backslash ∧ (s ++ rest).head? = some question) := by
      rintro ⟨rfl, mark⟩
      cases s with
      | nil => exact first mark
      | cons c s => exact noMark ⟨rfl, mark⟩
    rw [List.cons_append, url_byte _ plain noMark', ih, List.append_assoc]
    rfl

theorem url_param {text : Bytes} {d : Descriptor} (h : ParamText text d)
    (fresh : u.params.contains d.name = false)
    (next : rest.head?.any (fun b => b != slash && b != question) = false) :
    url u [] (text ++ rest) = url (u.addParam d) [] rest := by
  have scanned := h.pathParam_append rest
  obtain ⟨inner, rfl⟩ := h.exists_cons
  rw [List.cons_append] at scanned ⊢
  rw [url, if_pos rfl, if_neg (not_not_intro rfl)]
  split
  · rename_i failed
    rw [scanned] at failed
    cases failed
  · rename_i d' tail read
    rw [scanned] at read
    cases read
    rw [next, fresh, if_neg Bool.false_ne_true, if_neg Bool.false_ne_true]

theorem url_piece {p : Piece} (written : p.Written)
    (fresh : ∀ e ∈ p.params, u.params.contains e.1 = false) :
    url u [] p.text = .ok (u.add p) ∧
      url u [] (p.text ++ slash :: rest) = url (u.add p) [] rest := by
  cases p with
  | literal text =>
    have decodes := Literal.decodes written
    have last : url u [] (text ++ []) = url u (unescape text) [] := url_decodes [] decodes nofun
    have inner : url u [] (text ++ slash :: rest) = url u (unescape text) (slash :: rest) :=
      url_decodes (slash :: rest) decodes nofun
    rw [List.append_nil, url_nil] at last
    rw [url_slash] at inner
    exact ⟨last, inner⟩
  | param text d =>
    have fresh := fresh (d.name, d) List.mem_cons_self
    have last := url_param [] written fresh rfl
    have inner := url_param (slash :: rest) written fresh rfl
    rw [List.append_nil, url_nil] at last
    rw [url_slash] at inner
    exact ⟨last, inner⟩

end

theorem Url.Reads.url_joined {u u' : Url} {pieces : List Piece} (h : u.Reads pieces u') :
    url u [] (joined pieces) = .ok u' := by
  induction h with
  | nil u => exact url_nil
  | @cons u u' p pieces written fresh _ ih =>
    cases pieces with
    | nil =>
      rw [joined_nil, url_nil] at ih
      rw [joined_singleton, (url_piece [] written fresh).1]
      exact ih
    | cons p' pieces => rw [joined_cons (List.cons_ne_nil _ _), (url_piece _ written fresh).2, ih]

def Url.tail (u : Url) : Bytes := (u.query.map (question :: ·)).getD []

theorem Url.fresh_literal (u : Url) (text : Bytes) :
    ∀ e ∈ (Piece.literal text).params, u.params.contains e.1 = false := nofun

theorem Url.closed {u : Url} (fresh : u.query = none) : { u with query := none } = u := by
  rw [← fresh]

theorem reads_of_url {u u' : Url} {literal s begun : Bytes} (h : url u literal s = .ok u')
    (unread : u.query = none) (decodes : Decodes begun literal) :
    ∃ pieces, pieces ≠ [] ∧ begun ++ s = joined pieces ++ u'.tail ∧
      u.Reads pieces { u' with query := none } := by
  obtain ⟨written, same⟩ := decodes.literal
  fun_induction url u literal s generalizing begun with
  | case1 u literal =>
    cases h
    have closed : (u.flush literal).query = none := by rw [Url.query_flush, unread]
    refine ⟨[.literal begun], List.cons_ne_nil _ _, ?_, .cons written (u.fresh_literal begun) ?_⟩
    · rw [joined_singleton, Url.tail, closed]
      rfl
    · rw [Url.closed closed, same]
      exact .nil _
  | case2 => cases h
  | case3 => cases h
  | case4 => cases h
  | case5 => cases h
  | case6 u literal rest whole d tail next fresh read shorter ih =>
    rw [same, ne_eq, Decidable.not_not, unescape_eq_nil_iff] at whole
    subst whole
    obtain ⟨text, split, param⟩ := pathParam_eq_ok_iff.mp read
    obtain ⟨pieces, some, joins, reads⟩ := ih h unread .nil literal_nil rfl
    rw [Bool.not_eq_true] at next fresh
    obtain ⟨p, pieces, rfl⟩ := List.exists_cons_of_ne_nil some
    obtain ⟨written', -, reads⟩ := Url.reads_cons_iff.mp reads
    obtain rfl : p = .literal [] := by
      rw [List.nil_append] at joins
      rw [joins] at next
      exact eq_blank_of_head written' next
    refine ⟨.param text d :: pieces, List.cons_ne_nil _ _, ?_, .cons param ?_ reads⟩
    · have start := joined_append (List.cons_ne_nil (.param text d) []) pieces
      rw [List.singleton_append, joined_singleton] at start
      rw [start, List.append_assoc, ← joins, split]
      rfl
    · intro e he
      rw [List.mem_singleton.mp he]
      exact fresh
  | case7 u literal b rest _ mark ih =>
    rw [Bool.and_eq_true, decide_eq_true_eq, decide_eq_true_eq] at mark
    obtain ⟨rfl, first⟩ := mark
    obtain ⟨rest, rfl⟩ := List.head?_eq_some_iff.mp first
    have decodes := decodes.append (.mark .nil) (by decide)
    obtain ⟨pieces, some, joins, reads⟩ :=
      ih h unread decodes decodes.literal.1 decodes.literal.2
    exact ⟨pieces, some, by rw [← joins]; simp, reads⟩
  | case8 u literal rest =>
    cases h
    have closed : (u.flush literal).query = none := by rw [Url.query_flush, unread]
    refine ⟨[.literal begun], List.cons_ne_nil _ _, ?_, .cons written (u.fresh_literal begun) ?_⟩
    · rw [joined_singleton]
      rfl
    · change Url.Reads _ [] { u.flush literal with query := none }
      rw [Url.closed closed, same]
      exact .nil _
  | case9 u literal rest _ _ _ ih =>
    have closed : (u.flush literal).query = none := by rw [Url.query_flush, unread]
    obtain ⟨pieces, some, joins, reads⟩ := ih h closed .nil literal_nil rfl
    refine ⟨.literal begun :: pieces, List.cons_ne_nil _ _, ?_, ?_⟩
    · rw [joined_cons some, List.append_assoc, List.cons_append, ← joins]
      rfl
    · refine .cons written (u.fresh_literal begun) ?_
      rw [Url.add, ← same]
      exact reads
  | case10 u literal b rest noAngle noMark noQuestion noSlash ih =>
    have plain : Decodes [b] [b] := .byte ⟨noSlash, noAngle, noQuestion⟩ (by simp) .nil
    have decodes := decodes.append plain (by simpa using noQuestion)
    obtain ⟨pieces, some, joins, reads⟩ :=
      ih h unread decodes decodes.literal.1 decodes.literal.2
    exact ⟨pieces, some, by rw [← joins]; simp, reads⟩

def segmentsOf (pieces : List Piece) : List Segment := pieces.flatMap (·.segments)

def paramsOf (pieces : List Piece) : List (Bytes × Descriptor) := pieces.flatMap (·.params)

theorem Url.add_eq (u : Url) (p : Piece) : u.add p =
    { u with segments := u.segments ++ p.segments, params := u.params.insertAll p.params } := by
  cases p with
  | literal text =>
    by_cases blank : text = [] <;>
      simp [Url.add, Url.flush, unescape_eq_nil_iff, blank, Piece.segments, Piece.params,
        Dictionary.insertAll]
  | param text d => rfl

theorem Url.contains_add_iff {u : Url} {p : Piece} {name : Bytes} :
    (u.add p).params.contains name = false ↔
      (∀ e ∈ p.params, name ≠ e.1) ∧ u.params.contains name = false := by
  rw [Url.add_eq]
  cases p with
  | literal text => simp [Piece.params, Dictionary.insertAll]
  | param text d => simp [Piece.params, Dictionary.insertAll, Dictionary.contains_insert_iff]

theorem Url.reads_iff {u u' : Url} {pieces : List Piece} :
    u.Reads pieces u' ↔
      (∀ p ∈ pieces, p.Written) ∧ ((paramsOf pieces).map (·.1)).Nodup ∧
        (∀ e ∈ paramsOf pieces, u.params.contains e.1 = false) ∧
        u' = { u with
          segments := u.segments ++ segmentsOf pieces
          params := u.params.insertAll (paramsOf pieces) } := by
  induction pieces generalizing u with
  | nil => simp [reads_nil_iff, paramsOf, segmentsOf, Dictionary.insertAll]
  | cons p pieces ih =>
    have params : paramsOf (p :: pieces) = p.params ++ paramsOf pieces := List.flatMap_cons
    have segments : segmentsOf (p :: pieces) = p.segments ++ segmentsOf pieces := List.flatMap_cons
    have own : (p.params.map (·.1)).Nodup := by cases p <;> simp [Piece.params]
    have result : ({ u.add p with
          segments := (u.add p).segments ++ segmentsOf pieces
          params := (u.add p).params.insertAll (paramsOf pieces) } : Url) =
        { u with
          segments := u.segments ++ segmentsOf (p :: pieces)
          params := u.params.insertAll (paramsOf (p :: pieces)) } := by
      rw [Url.add_eq, params, segments, Dictionary.insertAll, Dictionary.insertAll,
        Dictionary.insertAll, List.foldl_append, List.append_assoc]
    rw [reads_cons_iff, ih, result, List.forall_mem_cons, params, List.map_append,
      List.nodup_append]
    simp only [Url.contains_add_iff, List.forall_mem_append]
    constructor
    · rintro ⟨written, fresh, others, distinct, free, same⟩
      refine ⟨⟨written, others⟩, ⟨own, distinct, ?_⟩, ⟨fresh, fun e he => (free e he).2⟩, same⟩
      intro name hname name' hname'
      obtain ⟨e, he, rfl⟩ := List.mem_map.mp hname
      obtain ⟨e', he', rfl⟩ := List.mem_map.mp hname'
      exact Ne.symm ((free e' he').1 e he)
    · rintro ⟨⟨written, others⟩, ⟨-, distinct, apart⟩, ⟨fresh, free⟩, same⟩
      refine ⟨written, fresh, others, distinct, fun e he => ⟨fun e' he' => ?_, free e he⟩, same⟩
      exact Ne.symm (apart _ (List.mem_map_of_mem he') _ (List.mem_map_of_mem he))

end Template

end HttpRouting
