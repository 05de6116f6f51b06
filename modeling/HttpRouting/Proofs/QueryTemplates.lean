import HttpRouting.Proofs.QueryText
import HttpRouting.Proofs.UrlTemplates

namespace HttpRouting

open Byte Bytes Template

structure Template.ListEntry (e : Bytes) : Prop where
  full : e ≠ []
  trimmed : trim e = e
  plain : ∀ b ∈ e, b ≠ ampersand ∧ b ≠ rightParen ∧ b ≠ bar

namespace Descriptor

def listed (d : Descriptor) : List Bytes :=
  (d.types.filter (· ≠ .regex)).map (fun t => ascii t.name) ++ d.choices

def patternText (d : Descriptor) : Bytes :=
  match d.pattern with
  | none => []
  | some p => leftBrace :: p.source ++ [rightBrace]

def listText (d : Descriptor) : Bytes :=
  if d.listed = [] then [] else leftParen :: join "|" d.listed ++ [rightParen]

def marks (d : Descriptor) : Bytes :=
  (if d.isArray then [leftBracket, rightBracket] else []) ++ if d.isOptional then [question] else []

def queryText (d : Descriptor) : Bytes :=
  d.name ++ equals :: (d.patternText ++ (d.listText ++ d.marks))

def queryTemplate (ds : List Descriptor) : Bytes := join "&" (ds.map queryText)

structure Writable (d : Descriptor) : Prop where
  named : d.name ≠ []
  letters : ∀ b ∈ d.name, b ≠ space ∧ b ≠ equals ∧ b ≠ ampersand
  untabbed : d.name.head? ≠ some tab
  typed : d.types ≠ [] ∧ d.types.Nodup ∧ .regex ∉ d.types ∨
    d.types = [.regex] ∧ d.pattern.isSome
  choices : ∀ c ∈ d.choices, ListEntry c ∧ ParamType.ofName? c = none
  pattern : ∀ p ∈ d.pattern, Nested p.source ∧ Pattern.compile? p.source = some p

def enter (d : Descriptor) (entry : Bytes) : Descriptor :=
  match ParamType.ofName? entry with
  | some t => d.addType t
  | none => { d with choices := d.choices ++ [entry] }

theorem foldl_enter_types {ts : List ParamType} (nameable : ∀ t ∈ ts, t ≠ .regex) (d : Descriptor)
    (distinct : (d.types ++ ts).Nodup) :
    (ts.map fun t => ascii t.name).foldl enter d = { d with types := d.types ++ ts } := by
  induction ts generalizing d with
  | nil => simp
  | cons t ts ih =>
    obtain ⟨first, others⟩ := List.forall_mem_cons.mp nameable
    have fresh : t ∉ d.types := fun listed =>
      (List.nodup_append.mp distinct).2.2 t listed t List.mem_cons_self rfl
    have added : d.enter (ascii t.name) = { d with types := d.types ++ [t] } := by
      simp [enter, ofName?_name first, addType, hasType, fresh]
    rw [List.map_cons, List.foldl_cons, added, ih others _ (by simpa using distinct)]
    simp

theorem foldl_enter_choices {cs : List Bytes} (unnamed : ∀ c ∈ cs, ParamType.ofName? c = none)
    (d : Descriptor) : cs.foldl enter d = { d with choices := d.choices ++ cs } := by
  induction cs generalizing d with
  | nil => simp
  | cons c cs ih =>
    obtain ⟨first, others⟩ := List.forall_mem_cons.mp unnamed
    have added : d.enter c = { d with choices := d.choices ++ [c] } := by simp [enter, first]
    rw [List.foldl_cons, added, ih others]
    simp

end Descriptor

namespace Template

theorem entry_name (t : ParamType) : ListEntry (ascii t.name) where
  full := name_ne_nil t
  trimmed := by cases t <;> decide
  plain b hb := by
    have letter := isName_of_mem_name b hb
    refine ⟨?_, ?_, ?_⟩ <;> rintro rfl <;> exact absurd letter (by decide)

theorem typePart_entry {e : Bytes} (plain : ∀ b ∈ e, b ≠ ampersand ∧ b ≠ rightParen ∧ b ≠ bar)
    (d : Descriptor) (start begun rest : Bytes) :
    typePart d (.list start begun) (e ++ rest) = typePart d (.list start (begun ++ e)) rest := by
  induction e generalizing begun with
  | nil => simp
  | cons b e ih =>
    obtain ⟨⟨goes, inside, same⟩, others⟩ := List.forall_mem_cons.mp plain
    rw [List.cons_append, typePart, if_neg goes, if_neg inside, if_neg same, ih others]
    simp

theorem ListEntry.addEntry_eq {e : Bytes} (h : ListEntry e) (d : Descriptor) (start rest : Bytes) :
    addEntry d start e rest = .ok (d.enter e) := by
  rw [addEntry, h.trimmed, if_neg h.full, Descriptor.enter]
  cases ParamType.ofName? e <;> rfl

theorem typePart_entries {es : List Bytes} (full : es ≠ []) (entries : ∀ e ∈ es, ListEntry e)
    (d : Descriptor) (start rest : Bytes) :
    typePart d (.list start []) (join "|" es ++ rightParen :: rest) =
      typePart (es.foldl Descriptor.enter d) (.name rest []) rest := by
  induction es generalizing d with
  | nil => exact absurd rfl full
  | cons e es ih =>
    obtain ⟨first, others⟩ := List.forall_mem_cons.mp entries
    cases es with
    | nil =>
      have own : addEntry d start ([] ++ e) rest = .ok (d.enter e) := first.addEntry_eq d start rest
      rw [join_singleton, typePart_entry first.plain, typePart, if_neg (by decide), if_pos rfl, own]
      rfl
    | cons e' es =>
      have own (rest : Bytes) : addEntry d start ([] ++ e) rest = .ok (d.enter e) :=
        first.addEntry_eq d start rest
      have separator : ascii "|" = [bar] := rfl
      rw [join_cons (List.cons_ne_nil _ _), separator, List.append_assoc, List.append_assoc,
        typePart_entry first.plain, List.singleton_append, typePart, if_neg (by decide),
        if_neg (by decide), if_pos rfl, own, List.foldl_cons, ← ih (List.cons_ne_nil _ _) others]
      rfl

theorem typePart_marks (d : Descriptor) (start : Bytes) :
    typePart { d with isArray := false, isOptional := false } (.name start []) d.marks =
      .ok (d, []) := by
  obtain ⟨name, types, choices, isArray, isOptional, pattern⟩ := d
  cases isArray <;> cases isOptional <;> rfl

end Template

namespace Descriptor

variable {d : Descriptor}

def withoutRegex (d : Descriptor) : Descriptor := { d with types := d.types.filter (· ≠ .regex) }

theorem Writable.listed_entries (h : d.Writable) : ∀ e ∈ d.listed, ListEntry e := by
  intro e he
  rcases List.mem_append.mp he with he | he
  · obtain ⟨t, -, rfl⟩ := List.mem_map.mp he
    exact entry_name t
  · exact (h.choices e he).1

theorem Writable.foldl_listed (h : d.Writable) :
    d.listed.foldl enter { name := d.name, pattern := d.pattern } =
      { d.withoutRegex with isArray := false, isOptional := false } := by
  have nameable : ∀ t ∈ d.types.filter (· ≠ .regex), t ≠ .regex := fun t ht => by
    simpa using (List.mem_filter.mp ht).2
  have distinct : ([] ++ d.types.filter (· ≠ ParamType.regex)).Nodup := by
    rw [List.nil_append]
    rcases h.typed with ⟨-, distinct, -⟩ | ⟨only, -⟩
    · exact distinct.filter _
    · rw [only]
      decide
  have unnamed : ∀ c ∈ d.choices, ParamType.ofName? c = none := fun c hc => (h.choices c hc).2
  rw [listed, List.foldl_append, foldl_enter_types nameable _ distinct,
    foldl_enter_choices unnamed]
  rfl

theorem Writable.typePart_eq (h : d.Writable) (start : Bytes) :
    typePart { name := d.name, pattern := d.pattern } (.name start []) (d.listText ++ d.marks) =
      .ok (d.withoutRegex, []) := by
  have folded := h.foldl_listed
  rw [listText]
  split
  · rename_i none
    rw [none] at folded
    rw [List.nil_append]
    exact (congrArg (typePart · (.name start []) d.marks) folded).trans
      (typePart_marks d.withoutRegex start)
  · rename_i full
    have opened := typePart_entries full h.listed_entries { name := d.name, pattern := d.pattern }
      (leftParen :: join "|" d.listed ++ rightParen :: d.marks) d.marks
    rw [folded] at opened
    rw [List.append_assoc]
    exact opened.trans (typePart_marks d.withoutRegex d.marks)

theorem Writable.withDefaultType_eq (h : d.Writable) : withDefaultType d.withoutRegex = d := by
  rcases h.typed with ⟨full, -, other⟩ | ⟨only, some⟩
  · have kept : d.types.filter (· ≠ .regex) = d.types :=
      List.filter_eq_self.mpr fun t ht => decide_eq_true fun same => other (same ▸ ht)
    rw [withoutRegex, kept, withDefaultType, if_neg full]
  · obtain ⟨name, types, choices, isArray, isOptional, pattern⟩ := d
    obtain rfl : types = [.regex] := only
    have typeless : withoutRegex ⟨name, [.regex], choices, isArray, isOptional, pattern⟩ =
        ⟨name, [], choices, isArray, isOptional, pattern⟩ := rfl
    rw [typeless, withDefaultType, if_pos rfl, if_pos some]
    rfl

theorem head_listText (d : Descriptor) : ∀ b ∈ (d.listText ++ d.marks).head?,
    b = leftParen ∨ b = leftBracket ∨ b = question := by
  rw [listText]
  split
  · rw [marks]
    cases d.isArray <;> cases d.isOptional <;> simp
  · simp

theorem skipBlank_listText (d : Descriptor) :
    skipBlank (d.listText ++ d.marks) = d.listText ++ d.marks := by
  have head := head_listText d
  cases text : d.listText ++ d.marks with
  | nil => rfl
  | cons b rest =>
    rw [text] at head
    rcases head b rfl with rfl | rfl | rfl <;> exact skipBlank_cons (by decide) rest

theorem Writable.queryPattern_eq (h : d.Writable) :
    queryPattern { name := d.name } (skipBlank (d.patternText ++ (d.listText ++ d.marks))) =
      .ok ({ name := d.name, pattern := d.pattern }, d.listText ++ d.marks) := by
  rw [patternText]
  cases pattern : d.pattern with
  | none =>
    have plain : (d.listText ++ d.marks).head? ≠ some leftBrace := fun opens => by
      rcases head_listText d _ opens with same | same | same <;> cases same
    dsimp only
    rw [List.nil_append, skipBlank_listText, queryPattern, if_neg plain]
    rfl
  | some p =>
    obtain ⟨nested, compiled⟩ := h.pattern p pattern
    have text : leftBrace :: p.source ++ [rightBrace] ++ (d.listText ++ d.marks) =
        leftBrace :: (p.source ++ rightBrace :: (d.listText ++ d.marks)) := by simp
    have scanned : braced (leftBrace :: (p.source ++ rightBrace :: (d.listText ++ d.marks))) =
        .ok (p, d.listText ++ d.marks) :=
      braced_eq_ok_iff.mpr ⟨p.source, rfl, nested, compiled⟩
    dsimp only
    rw [text, skipBlank_cons (by decide), queryPattern, if_pos List.head?_cons, scanned]
    exact congrArg (fun rest => Except.ok (_, rest)) (skipBlank_listText d)

theorem Writable.queryParam_eq (h : d.Writable) : queryParam d.queryText = .ok (d, []) := by
  have inside : ∀ b ∈ d.name, inQueryName b = true := fun b hb => by
    simp [inQueryName, h.letters b hb]
  have spaceless : d.name.filter (· != space) = d.name :=
    List.filter_eq_self.mpr fun b hb => by simp [h.letters b hb]
  have stop : ∀ b ∈ (equals :: (d.patternText ++ (d.listText ++ d.marks))).head?,
      inQueryName b = false := by
    rintro b ⟨⟩
    decide
  have unmarked : after? colon (d.listText ++ d.marks) = none := by
    cases text : d.listText ++ d.marks with
    | nil => rfl
    | cons b rest =>
      have head := head_listText d
      rw [text] at head
      rcases head b rfl with rfl | rfl | rfl <;> rfl
  obtain ⟨taken, left⟩ := run_append inside stop
  have value (s : Bytes) : after? equals (equals :: s) = some s := after?_eq_some_iff.mpr rfl
  rw [queryParam, queryText]
  simp only [taken, left, spaceless, value, if_neg h.named]
  refine Scan.bind_eq_ok.mpr ⟨_, h.queryPattern_eq, ?_⟩
  simp only [unmarked, Option.getD_none]
  refine Scan.bind_eq_ok.mpr ⟨_, h.typePart_eq _, ?_⟩
  exact congrArg (fun d => Except.ok (d, [])) h.withDefaultType_eq

theorem Writable.declares (h : d.Writable) : Declares d.queryText [d] := by
  obtain ⟨b, name, same⟩ := List.exists_cons_of_ne_nil h.named
  have letters := h.letters b (same ▸ List.mem_cons_self)
  have untabbed := h.untabbed
  have read := h.queryParam_eq
  have text : d.queryText =
      b :: (name ++ equals :: (d.patternText ++ (d.listText ++ d.marks))) := by
    rw [queryText, same]
    rfl
  rw [same, List.head?_cons] at untabbed
  have solid : isBlank b = false := by
    simpa [isBlank, letters] using fun same => untabbed (congrArg some same)
  rw [text] at read ⊢
  exact .param (skipBlank_cons solid _) letters.2.2 read (.done rfl)

theorem declares_queryTemplate {ds : List Descriptor} (h : ∀ d ∈ ds, d.Writable) :
    Declares (queryTemplate ds) ds := by
  induction ds with
  | nil => exact .done rfl
  | cons d ds ih =>
    obtain ⟨first, others⟩ := List.forall_mem_cons.mp h
    cases ds with
    | nil =>
      rw [queryTemplate, List.map_singleton, join_singleton]
      exact first.declares
    | cons d' ds =>
      rw [queryTemplate, List.map_cons, join_cons (by simp)]
      exact first.declares.append (ih others)

end Descriptor

namespace Template

open Descriptor (queryTemplate)

theorem parse_queryTemplate {ds : List Descriptor} (writable : ∀ d ∈ ds, d.Writable)
    (distinct : (ds.map (·.name)).Nodup) :
    parse (question :: queryTemplate ds) =
        .ok (ofQuery (queryTemplate ds) (Dictionary.ofList (byName ds))) ∧
      ∀ name d, (Dictionary.ofList (byName ds)).find? name = some d ↔ d ∈ ds ∧ d.name = name := by
  have declares := Descriptor.declares_queryTemplate writable
  refine ⟨parse_question (declares.query_eq distinct fun _ _ => rfl), fun name d => ?_⟩
  rw [Dictionary.find?_ofList, ← mem_byName_iff]
  exact ⟨mem_of_latest, latest_of_nodup (by rwa [names_byName])⟩

def crossedSource : Bytes := ascii "^[()|&?]\x7b1,2\x7d\\\x7d$"

def crossedParams (p : Pattern) : List Descriptor := [
  { name := ascii "?(a[", types := [.boolean, .number], choices := [ascii "(x:\x7by =[?]"],
    isArray := true },
  { name := ascii "\x7bb\t|)", types := [.regex], choices := [ascii "?"], isOptional := true,
    pattern := some p }]

theorem parse_queryTemplate_crossed :
    ∃ p, Pattern.compile? crossedSource = some p ∧
      (∀ d ∈ crossedParams p, d.Writable) ∧ ((crossedParams p).map (·.name)).Nodup ∧
      ∃ t, parse (ascii "??(a[=(boolean|number|(x:\x7by =[?])[]&\x7bb\t|)=\x7b" ++
          crossedSource ++ ascii "\x7d(?)?") = .ok t ∧
        ∀ name d, t.queryParams.find? name = some d ↔ d ∈ crossedParams p ∧ d.name = name := by
  have compiles : (Pattern.compile? crossedSource).isSome := by decide +kernel
  have nested : Nested crossedSource := by decide
  obtain ⟨p, compiled⟩ := Option.isSome_iff_exists.mp compiles
  obtain ⟨node, -, rfl⟩ := Option.map_eq_some_iff.mp compiled
  have writable : ∀ d ∈ crossedParams ⟨crossedSource, node⟩, d.Writable := by
    have letters : ∀ b ∈ ascii "\x7bb\t|)", b ≠ space ∧ b ≠ equals ∧ b ≠ ampersand := by
      decide +kernel
    have closed : ListEntry (ascii "(x:\x7by =[?]") := ⟨by decide, by decide, by decide +kernel⟩
    have mark : ListEntry (ascii "?") := ⟨by decide, by decide, by decide +kernel⟩
    rw [crossedParams, List.forall_mem_cons, List.forall_mem_singleton]
    constructor
    · refine ⟨by decide, by decide +kernel, by decide, .inl (by decide), ?_, nofun⟩
      exact List.forall_mem_singleton.mpr ⟨closed, by decide⟩
    · refine ⟨nofun, letters, nofun, .inr ⟨rfl, rfl⟩, ?_, ?_⟩
      · exact List.forall_mem_singleton.mpr ⟨mark, by decide⟩
      · rintro p ⟨⟩
        exact ⟨nested, compiled⟩
  have distinct : ((crossedParams ⟨crossedSource, node⟩).map (·.name)).Nodup := by
    have names : (crossedParams ⟨crossedSource, node⟩).map (·.name) =
        [ascii "?(a[", ascii "\x7bb\t|)"] := rfl
    rw [names]
    decide
  obtain ⟨read, declared⟩ := parse_queryTemplate writable distinct
  exact ⟨_, compiled, writable, distinct, _, read, declared⟩

end Template

end HttpRouting
