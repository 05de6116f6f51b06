import HttpRouting.Proofs.UrlText

namespace HttpRouting.Template

open Byte Bytes

theorem scan_eq_ok_iff {source : Bytes} {t : Template} :
    scan source = .ok t ↔
      ∃ u queryParams, url {} [] source = .ok u ∧ query ∅ (u.query.getD []) = .ok queryParams ∧
        t = {
          source
          urlPath := source.take (source.length - u.unread)
          queryPath := u.query.getD []
          pathParams := u.params
          queryParams
          segments := u.segments } := by
  constructor
  · intro h
    obtain ⟨u, read, h⟩ := Scan.bind_eq_ok.mp h
    obtain ⟨queryParams, declared, h⟩ := Scan.bind_eq_ok.mp h
    cases h
    exact ⟨u, queryParams, read, declared, rfl⟩
  · rintro ⟨u, queryParams, read, declared, rfl⟩
    exact Scan.bind_eq_ok.mpr ⟨u, read, Scan.bind_eq_ok.mpr ⟨queryParams, declared, rfl⟩⟩

theorem parse_eq_ok_iff {source : Bytes} {t : Template} :
    parse source = .ok t ↔ scan source = .ok t := by
  rw [parse]
  cases scan source with
  | error e =>
    constructor
    · intro h
      cases h
    · intro h
      cases h
  | ok t' =>
    constructor
    · intro h
      cases h
      rfl
    · intro h
      cases h
      rfl

theorem Url.take_unread (u : Url) (start : Bytes) :
    (start ++ u.tail).take ((start ++ u.tail).length - u.unread) = start := by
  have unread : u.unread = u.tail.length := by
    rw [Url.unread, Url.tail]
    cases u.query <;> rfl
  rw [unread, List.length_append, Nat.add_sub_cancel, List.take_left]

theorem pieces_of_parse {source : Bytes} {t : Template} (h : parse source = .ok t) :
    ∃ pieces, pieces ≠ [] ∧
      ({} : Url).Reads pieces { segments := t.segments, params := t.pathParams } ∧
      t.urlPath = joined pieces ∧ query ∅ t.queryPath = .ok t.queryParams ∧
      (source = t.urlPath ∧ t.queryPath = [] ∨ source = t.urlPath ++ question :: t.queryPath) := by
  obtain ⟨u, queryParams, read, declared, rfl⟩ := scan_eq_ok_iff.mp (parse_eq_ok_iff.mp h)
  obtain ⟨pieces, some, joins, reads⟩ := reads_of_url read rfl .nil
  rw [List.nil_append] at joins
  subst joins
  refine ⟨pieces, some, reads, u.take_unread _, declared, ?_⟩
  rw [u.take_unread]
  cases asked : u.query with
  | none => exact .inl ⟨by rw [Url.tail, asked]; exact List.append_nil _, rfl⟩
  | some q => exact .inr (by rw [Url.tail, asked]; rfl)

def ofUrl (text : Bytes) (segments : List Segment) (params : Params) : Template where
  source := text
  urlPath := text
  queryPath := []
  pathParams := params
  queryParams := ∅
  segments

def ofQuery (text : Bytes) (params : Params) : Template where
  source := question :: text
  urlPath := []
  queryPath := text
  pathParams := ∅
  queryParams := params
  segments := []

theorem parse_joined {u : Url} {pieces : List Piece} (h : ({} : Url).Reads pieces u) :
    parse (joined pieces) = .ok (ofUrl (joined pieces) u.segments u.params) := by
  have closed : u.query = none := by
    obtain ⟨-, -, -, rfl⟩ := Url.reads_iff.mp h
    rfl
  have unread := u.take_unread (joined pieces)
  have tail : u.tail = [] := by rw [Url.tail, closed]; rfl
  rw [tail, List.append_nil] at unread
  refine parse_eq_ok_iff.mpr (scan_eq_ok_iff.mpr ⟨u, ∅, h.url_joined, ?_, ?_⟩)
  · rw [closed, Option.getD_none, query]
    rfl
  · rw [unread, closed]
    rfl

theorem parse_question {q : Bytes} {params : Params} (h : query ∅ q = .ok params) :
    parse (question :: q) = .ok (ofQuery q params) := by
  have asked : url {} [] (question :: q) = .ok { query := some q } := by
    rw [url]
    rfl
  have unread : (question :: q).length - Url.unread { query := some q } = 0 := Nat.sub_self _
  refine parse_eq_ok_iff.mpr (scan_eq_ok_iff.mpr ⟨_, params, asked, h, ?_⟩)
  rw [unread]
  rfl

structure Spells (pieces : List Piece) (source : Bytes) : Prop where
  joins : source = joined pieces
  written : ∀ p ∈ pieces, p.Written
  distinct : ((paramsOf pieces).map (·.1)).Nodup

theorem Spells.reads {pieces : List Piece} {source : Bytes} (h : Spells pieces source) :
    ({} : Url).Reads pieces {
      segments := segmentsOf pieces
      params := Dictionary.ofList (paramsOf pieces) } :=
  Url.reads_iff.mpr ⟨h.written, h.distinct, fun _ _ => rfl, rfl⟩

theorem mem_paramsOf_iff {pieces : List Piece} {name : Bytes} {d : Descriptor} :
    (name, d) ∈ paramsOf pieces ↔ ∃ text, .param text d ∈ pieces ∧ d.name = name := by
  rw [paramsOf, List.mem_flatMap]
  constructor
  · rintro ⟨p, hp, found⟩
    cases p with
    | literal text => cases found
    | param text d' =>
      cases List.mem_singleton.mp found
      exact ⟨text, hp, rfl⟩
  · rintro ⟨text, hp, rfl⟩
    exact ⟨_, hp, List.mem_cons_self⟩

theorem parse_url_iff (source : Bytes) :
    ((∃ t, parse source = .ok t ∧ t.urlPath = source) ↔ ∃ pieces, Spells pieces source) ∧
      ∀ pieces, Spells pieces source →
        parse source =
            .ok (ofUrl source (segmentsOf pieces) (Dictionary.ofList (paramsOf pieces))) ∧
          ∀ name d, (Dictionary.ofList (paramsOf pieces)).find? name = some d ↔
            ∃ text, .param text d ∈ pieces ∧ d.name = name := by
  have read (pieces : List Piece) (h : Spells pieces source) := h.joins ▸ parse_joined h.reads
  refine ⟨⟨?_, ?_⟩, fun pieces h => ⟨read pieces h, fun name d => ?_⟩⟩
  · rintro ⟨t, parsed, whole⟩
    obtain ⟨pieces, -, reads, joins, -⟩ := pieces_of_parse parsed
    obtain ⟨written, distinct, -⟩ := Url.reads_iff.mp reads
    exact ⟨pieces, whole.symm.trans joins, written, distinct⟩
  · rintro ⟨pieces, h⟩
    exact ⟨_, read pieces h, rfl⟩
  · rw [Dictionary.find?_ofList, ← mem_paramsOf_iff]
    exact ⟨mem_of_latest, latest_of_nodup h.distinct⟩

def codeSource : Bytes := ascii "^[A-Z/]\x7b2\x7d\\\x7d$"

def codeParam : Bytes := ascii "<code:\x7b" ++ codeSource ++ ascii "\x7d>"

def mixedPieces (p : Pattern) : List Piece := [
  .literal [],
  .literal (ascii "a\\?b"),
  .literal [],
  .param (ascii "<id : number>") { name := ascii "id", types := [.number] },
  .param codeParam { name := ascii "code", types := [.regex], pattern := some p }]

theorem mixedPieces_spells {p : Pattern} (compiled : Pattern.compile? codeSource = some p) :
    Spells (mixedPieces p) (ascii "/a\\?b//<id : number>/" ++ codeParam) where
  joins := rfl
  written := by
    have mark : Literal (ascii "a\\?b") :=
      (Decodes.byte (by decide) (by decide) (.mark (.byte (by decide) (by decide) .nil))).literal.1
    have letters : (∀ b ∈ ascii "id", isName b = true) ∧ ∀ b ∈ ascii "code", isName b = true :=
      ⟨List.all_eq_true.mp (by decide), List.all_eq_true.mp (by decide)⟩
    have id : ParamText (ascii "<id : number>") { name := ascii "id", types := [.number] } :=
      @ParamText.param (ascii "id") [] [space] _ _ (by decide) (by decide) letters.1 (by decide)
        (@TypeText.named _ .number [space] [] (by decide) (by decide) (by decide))
    have code : ParamText codeParam
        { name := ascii "code", types := [.regex], pattern := some p } :=
      @ParamText.param (ascii "code") [] [] _ _ (by decide) (by decide) letters.2 (by decide)
        (@TypeText.pattern _ p _ [] [] (by decide) compiled (by decide) (by decide))
    rw [mixedPieces, List.forall_mem_cons, List.forall_mem_cons, List.forall_mem_cons,
      List.forall_mem_cons, List.forall_mem_singleton]
    exact ⟨literal_nil, mark, literal_nil, id, code⟩
  distinct := by
    have names : (paramsOf (mixedPieces p)).map (·.1) = [ascii "id", ascii "code"] := rfl
    rw [names]
    decide

theorem parse_url_iff_mixed :
    ∃ p source, Pattern.compile? codeSource = some p ∧ Spells (mixedPieces p) source ∧
      parse source = .ok (ofUrl source
        [.literal (ascii "a?b"), .param (ascii "id"), .param (ascii "code")]
        (Dictionary.ofList (paramsOf (mixedPieces p)))) ∧
      (Dictionary.ofList (paramsOf (mixedPieces p))).find? (ascii "code") =
        some { name := ascii "code", types := [.regex], pattern := some p } := by
  have compiles : (Pattern.compile? codeSource).isSome := by decide +kernel
  obtain ⟨p, compiled⟩ := Option.isSome_iff_exists.mp compiles
  have spells := mixedPieces_spells compiled
  obtain ⟨read, declared⟩ := (parse_url_iff _).2 _ spells
  refine ⟨p, _, compiled, spells, read, (declared _ _).mpr ⟨codeParam, ?_, rfl⟩⟩
  simp [mixedPieces]

end HttpRouting.Template
