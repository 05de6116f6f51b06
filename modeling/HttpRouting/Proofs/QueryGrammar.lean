import HttpRouting.Proofs.TypeParts

/-!
The grammar of query sections. Main statements: a section is read just if it is written in the
grammar with names that differ, and it declares what is written in it.
-/

namespace HttpRouting.Template

open Byte Bytes

inductive TypeItem
  | type (t : ParamType)
  | list (entries : List Bytes)
  | array
  | optional
deriving DecidableEq

def TypeItem.add (d : Descriptor) : TypeItem → Descriptor
  | type t => d.addType t
  | list entries => entries.foldl Descriptor.enter d
  | array => { d with isArray := true }
  | optional => { d with isOptional := true }

structure Gains (d : Descriptor) (types : List ParamType) (choices : List Bytes) (e : Descriptor) :
    Prop where
  name : e.name = d.name
  pattern : e.pattern = d.pattern
  types : ∀ t, t ∈ e.types ↔ t ∈ d.types ∨ t ∈ types
  choices : e.choices = d.choices ++ choices

theorem Gains.trans {d e f : Descriptor} {ts ts' : List ParamType} {cs cs' : List Bytes}
    (h : Gains d ts cs e) (h' : Gains e ts' cs' f) : Gains d (ts ++ ts') (cs ++ cs') f where
  name := h'.name.trans h.name
  pattern := h'.pattern.trans h.pattern
  types t := by rw [h'.types, h.types, List.mem_append, or_assoc]
  choices := by rw [h'.choices, h.choices, List.append_assoc]

theorem gains_nothing {d e : Descriptor} (name : e.name = d.name) (pattern : e.pattern = d.pattern)
    (types : e.types = d.types) (choices : e.choices = d.choices) : Gains d [] [] e :=
  ⟨name, pattern, fun _ => by simp [types], choices.trans (List.append_nil _).symm⟩

theorem gains_addType (d : Descriptor) (t : ParamType) : Gains d [t] [] (d.addType t) := by
  rw [Descriptor.addType]
  split
  · rename_i known
    rw [Descriptor.hasType, List.contains_iff_mem] at known
    refine ⟨rfl, rfl, fun t' => ⟨.inl, ?_⟩, (List.append_nil _).symm⟩
    rintro (before | same)
    · exact before
    · rwa [List.mem_singleton.mp same]
  · exact ⟨rfl, rfl, fun _ => List.mem_append, (List.append_nil _).symm⟩

def typesAmong (entries : List Bytes) : List ParamType := entries.filterMap ParamType.ofName?

def literalsAmong (entries : List Bytes) : List Bytes :=
  entries.filter fun e => (ParamType.ofName? e).isNone

theorem gains_enter (d : Descriptor) (entry : Bytes) :
    Gains d (typesAmong [entry]) (literalsAmong [entry]) (d.enter entry) := by
  rw [Descriptor.enter, typesAmong, literalsAmong]
  cases named : ParamType.ofName? entry with
  | some t =>
    rw [List.filterMap_cons_some named, List.filter_cons_of_neg (by simp [named])]
    exact gains_addType d t
  | none =>
    rw [List.filterMap_cons_none named, List.filter_cons_of_pos (by simp [named])]
    exact ⟨rfl, rfl, fun _ => by simp, rfl⟩

theorem gains_entries (entries : List Bytes) (d : Descriptor) :
    Gains d (typesAmong entries) (literalsAmong entries) (entries.foldl Descriptor.enter d) := by
  induction entries generalizing d with
  | nil => exact gains_nothing rfl rfl rfl rfl
  | cons e entries ih =>
    have both := (gains_enter d e).trans (ih (d.enter e))
    rwa [typesAmong, literalsAmong, typesAmong, literalsAmong, ← List.filterMap_append,
      ← List.filter_append] at both

def TypeItem.types : TypeItem → List ParamType
  | type t => [t]
  | list entries => typesAmong entries
  | _ => []

def TypeItem.entries : TypeItem → List Bytes
  | list entries => entries
  | _ => []

theorem TypeItem.gains (item : TypeItem) (d : Descriptor) :
    Gains d item.types (literalsAmong item.entries) (item.add d) := by
  cases item with
  | type t => exact gains_addType d t
  | list entries => exact gains_entries entries d
  | array => exact gains_nothing rfl rfl rfl rfl
  | optional => exact gains_nothing rfl rfl rfl rfl

theorem gains_items (items : List TypeItem) (d : Descriptor) :
    Gains d (items.flatMap TypeItem.types) (literalsAmong (items.flatMap TypeItem.entries))
      (items.foldl TypeItem.add d) := by
  induction items generalizing d with
  | nil => exact gains_nothing rfl rfl rfl rfl
  | cons item items ih =>
    have both := (item.gains d).trans (ih (item.add d))
    rwa [literalsAmong, literalsAmong, ← List.filter_append] at both

inductive NameText : Bytes → List TypeItem → Prop
  | blank {s : Bytes} (spaces : s.filter (· != space) = []) : NameText s []
  | type {s : Bytes} {t : ParamType} (nameable : t ≠ .regex)
      (name : s.filter (· != space) = ascii t.name) : NameText s [.type t]

inductive ListText : Bytes → List Bytes → Prop
  | last {e : Bytes} (plain : ∀ b ∈ e, b ≠ ampersand ∧ b ≠ rightParen ∧ b ≠ bar)
      (full : trim e ≠ []) : ListText e [trim e]
  | more {e s : Bytes} {entries : List Bytes}
      (plain : ∀ b ∈ e, b ≠ ampersand ∧ b ≠ rightParen ∧ b ≠ bar) (full : trim e ≠ [])
      (rest : ListText s entries) : ListText (e ++ bar :: s) (trim e :: entries)

inductive MarkText : Bytes → TypeItem → Prop
  | optional : MarkText [question] .optional
  | array : MarkText [leftBracket, rightBracket] .array
  | list {s : Bytes} {entries : List Bytes} (listed : ListText s entries) :
      MarkText (leftParen :: s ++ [rightParen]) (.list entries)

def Ends (tail : Bytes) : Prop := ∀ b ∈ tail.head?, b = ampersand

inductive TypePartText : Bytes → List TypeItem → Bytes → Prop
  | last {s tail : Bytes} {items : List TypeItem} (named : NameText s items) (ends : Ends tail) :
      TypePartText (s ++ tail) items tail
  | mark {s m rest tail : Bytes} {items more : List TypeItem} {item : TypeItem}
      (named : NameText s items) (marked : MarkText m item)
      (others : TypePartText rest more tail) :
      TypePartText (s ++ (m ++ rest)) (items ++ item :: more) tail

section

variable {d e : Descriptor} {s text : Bytes} {items : List TypeItem}

theorem addEntry_eq_ok_iff {start entry rest : Bytes} :
    addEntry d start entry rest = .ok e ↔ trim entry ≠ [] ∧ e = d.enter (trim entry) := by
  by_cases empty : trim entry = []
  · rw [addEntry, if_pos empty]
    refine iff_of_false ?_ fun h => h.1 empty
    rintro ⟨⟩
  · have entered : addEntry d start entry rest = .ok (d.enter (trim entry)) := by
      rw [addEntry, if_neg empty, Descriptor.enter]
      cases ParamType.ofName? (trim entry) <;> rfl
    rw [entered, Except.ok.injEq, and_iff_right empty, eq_comm]

theorem addNamed_eq_ok_iff {start : Bytes} :
    addNamed d start (s.filter (· != space)) = .ok e ↔
      ∃ items, NameText s items ∧ e = items.foldl TypeItem.add d := by
  constructor
  · intro h
    rw [addNamed] at h
    split at h
    · rename_i empty
      cases h
      exact ⟨[], .blank empty, rfl⟩
    · split at h
      · rename_i t found
        obtain ⟨nameable, name⟩ := ofName?_eq_some found
        cases h
        exact ⟨_, .type nameable name, rfl⟩
      · cases h
  · rintro ⟨items, named, rfl⟩
    cases named with
    | blank spaces =>
      rw [spaces]
      rfl
    | type nameable name =>
      rw [name, addNamed, if_neg (name_ne_nil _), ofName?_name nameable]
      rfl

theorem NameText.bytes (h : NameText s items) : ∀ b ∈ s, b = space ∨ isName b = true := by
  intro b hb
  by_cases blank : b = space
  · exact .inl blank
  · have kept : b ∈ s.filter (· != space) := List.mem_filter.mpr ⟨hb, by simp [blank]⟩
    right
    cases h with
    | blank spaces =>
      rw [spaces] at kept
      cases kept
    | type nameable name =>
      rw [name] at kept
      exact isName_of_mem_name b kept

def IsMark (b : UInt8) : Prop :=
  b = ampersand ∨ b = question ∨ b = leftBracket ∨ b = leftParen

theorem NameText.unmarked (h : NameText s items) : ∀ b ∈ s, ¬IsMark b := by
  intro b hb mark
  have solid : b ≠ space := by rcases mark with rfl | rfl | rfl | rfl <;> decide
  have other : isName b = false := by rcases mark with rfl | rfl | rfl | rfl <;> decide
  rcases h.bytes b hb with blank | letter
  · exact solid blank
  · rw [other] at letter
    cases letter

theorem typePart_stretch (unmarked : ∀ b ∈ s, ¬IsMark b) (start rest : Bytes) :
    ∃ start', typePart d (.name start text) (s ++ rest) =
      typePart d (.name start' (text ++ s.filter (· != space))) rest := by
  induction s generalizing start text with
  | nil => exact ⟨start, by simp⟩
  | cons b s ih =>
    obtain ⟨plain, others⟩ := List.forall_mem_cons.mp unmarked
    simp only [IsMark, not_or] at plain
    obtain ⟨goes, required, single, unlisted⟩ := plain
    rw [List.cons_append, typePart, if_neg goes]
    by_cases blank : b = space
    · obtain ⟨start', read⟩ := @ih text others start
      refine ⟨start', ?_⟩
      rw [if_pos blank, read, List.filter_cons_of_neg (by simp [blank])]
    · obtain ⟨start', read⟩ := @ih (text ++ [b]) others
        (if text = [] then b :: (s ++ rest) else start)
      refine ⟨start', ?_⟩
      rw [if_neg blank, if_neg required, if_neg single, if_neg unlisted, read,
        List.filter_cons_of_pos (by simp [blank]), List.append_assoc]
      rfl

theorem typePart_list {entries : List Bytes} (h : ListText s entries) (d : Descriptor)
    (start rest : Bytes) :
    typePart d (.list start []) (s ++ rightParen :: rest) =
      typePart (entries.foldl Descriptor.enter d) (.name rest []) rest := by
  induction h generalizing d with
  | @last e plain full =>
    have added : addEntry d start ([] ++ e) rest = .ok (d.enter (trim e)) :=
      addEntry_eq_ok_iff.mpr ⟨full, rfl⟩
    rw [typePart_entry plain, typePart, if_neg (by decide), if_pos rfl, added]
    rfl
  | @more e s entries plain full _ ih =>
    have added (rest : Bytes) : addEntry d start ([] ++ e) rest = .ok (d.enter (trim e)) :=
      addEntry_eq_ok_iff.mpr ⟨full, rfl⟩
    rw [List.append_assoc, typePart_entry plain, List.cons_append, typePart, if_neg (by decide),
      if_neg (by decide), if_pos rfl, added, List.foldl_cons, ← ih]
    rfl

theorem MarkText.typePart_eq {m : Bytes} {item : TypeItem} (h : MarkText m item)
    {start : Bytes} (added : addNamed d start text = .ok e) (rest : Bytes) :
    typePart d (.name start text) (m ++ rest) = typePart (item.add e) (.name rest []) rest := by
  cases h with
  | optional =>
    rw [List.singleton_append, typePart, if_neg (by decide), if_neg (by decide), if_pos rfl, added]
    rfl
  | array =>
    rw [List.cons_append, List.singleton_append, typePart, if_neg (by decide),
      if_neg (by decide), if_neg (by decide), if_pos rfl, added]
    rfl
  | @list s entries listed =>
    have text : leftParen :: s ++ [rightParen] ++ rest = leftParen :: (s ++ rightParen :: rest) := by
      simp
    rw [text, typePart, if_neg (by decide), if_neg (by decide), if_neg (by decide),
      if_neg (by decide), if_pos rfl, added]
    exact typePart_list listed e _ rest

theorem typePart_ends {tail start : Bytes} (ends : Ends tail)
    (added : addNamed d start text = .ok e) :
    typePart d (.name start text) tail = .ok (e, tail) := by
  cases tail with
  | nil =>
    rw [typePart, added]
    rfl
  | cons b tail =>
    rw [typePart, if_pos (ends b rfl), added]
    rfl

theorem TypePartText.typePart_eq {tail : Bytes} (h : TypePartText s items tail) (d : Descriptor)
    (start : Bytes) :
    typePart d (.name start []) s = .ok (items.foldl TypeItem.add d, tail) := by
  induction h generalizing d start with
  | last named ends =>
    obtain ⟨start', read⟩ := typePart_stretch (d := d) named.unmarked start _
    rw [read, List.nil_append]
    exact typePart_ends ends (addNamed_eq_ok_iff.mpr ⟨_, named, rfl⟩)
  | mark named marked _ ih =>
    obtain ⟨start', read⟩ := typePart_stretch (d := d) named.unmarked start _
    rw [read, List.nil_append, marked.typePart_eq (addNamed_eq_ok_iff.mpr ⟨_, named, rfl⟩), ih,
      List.foldl_append, List.foldl_cons]

theorem list_of_typePart {d' : Descriptor} {start entry tail : Bytes}
    (plain : ∀ b ∈ entry, b ≠ ampersand ∧ b ≠ rightParen ∧ b ≠ bar)
    (h : typePart d (.list start entry) s = .ok (d', tail)) :
    ∃ inner entries rest, s = inner ++ rightParen :: rest ∧ ListText (entry ++ inner) entries ∧
      typePart (entries.foldl Descriptor.enter d) (.name rest []) rest = .ok (d', tail) := by
  induction s generalizing d entry with
  | nil => cases h
  | cons b s ih =>
    rcases typePart_cons_cases h with ⟨-, -, start, text, same, -⟩ | ⟨e, part', one, h⟩
    · cases same
    · cases one with
      | close added =>
        obtain ⟨full, rfl⟩ := addEntry_eq_ok_iff.mp added
        refine ⟨[], [trim entry], s, rfl, ?_, h⟩
        rw [List.append_nil]
        exact .last plain full
      | next added =>
        obtain ⟨full, rfl⟩ := addEntry_eq_ok_iff.mp added
        obtain ⟨inner, entries, rest, rfl, listed, read⟩ := ih (List.forall_mem_nil _) h
        exact ⟨bar :: inner, trim entry :: entries, rest, rfl, .more plain full listed, read⟩
      | byte inside =>
        have plain' := List.forall_mem_append.mpr ⟨plain, List.forall_mem_singleton.mpr inside⟩
        obtain ⟨inner, entries, rest, rfl, listed, read⟩ := ih plain' h
        rw [List.append_assoc] at listed
        exact ⟨b :: inner, entries, rest, rfl, listed, read⟩

theorem text_of_typePart {d' : Descriptor} {start stretch tail : Bytes}
    (h : typePart d (.name start (stretch.filter (· != space))) s = .ok (d', tail)) :
    ∃ items, TypePartText (stretch ++ s) items tail ∧ d' = items.foldl TypeItem.add d := by
  -- The stretch read so far is kept with its spaces, of which the reader has dropped track.
  -- By the length, as brackets and lists are more than one byte.
  induction size : s.length using Nat.strongRecOn generalizing d start stretch s with
  | _ n ih =>
    subst size
    have next {rest m : Bytes} {item : TypeItem} {e : Descriptor}
        (shorter : rest.length < s.length) (split : s = m ++ rest) (marked : MarkText m item)
        (added : addNamed d start (stretch.filter (· != space)) = .ok e)
        (h : typePart (item.add e) (.name rest []) rest = .ok (d', tail)) :
        ∃ items, TypePartText (stretch ++ s) items tail ∧ d' = items.foldl TypeItem.add d := by
      have read : typePart (item.add e) (.name rest (([] : Bytes).filter (· != space))) rest =
          .ok (d', tail) := h
      obtain ⟨items, named, rfl⟩ := addNamed_eq_ok_iff.mp added
      obtain ⟨more, others, rfl⟩ := ih _ shorter read rfl
      rw [split]
      exact ⟨_, .mark named marked others, by rw [List.foldl_append, List.foldl_cons]⟩
    cases s with
    | nil =>
      obtain ⟨e, added, same⟩ := Scan.bind_eq_ok.mp h
      cases same
      obtain ⟨items, named, rfl⟩ := addNamed_eq_ok_iff.mp added
      exact ⟨items, .last named nofun, rfl⟩
    | cons b s =>
      rcases typePart_cons_cases h with ⟨rfl, rfl, start, text, same, added⟩ | ⟨e, part', one, h⟩
      · cases same
        obtain ⟨items, named, rfl⟩ := addNamed_eq_ok_iff.mp added
        refine ⟨items, .last named ?_, rfl⟩
        rintro b ⟨⟩
        rfl
      · cases one with
        | space =>
          have read : typePart d (.name start ((stretch ++ [space]).filter (· != space))) s =
              .ok (d', tail) := by simpa using h
          obtain ⟨items, written, same⟩ := ih _ (Nat.lt_succ_self _) read rfl
          exact ⟨items, by simpa using written, same⟩
        | optional added => exact next (Nat.lt_succ_self _) rfl .optional added h
        | brackets added =>
          cases s with
          | nil => cases h
          | cons b s =>
            rcases typePart_cons_cases h with ⟨-, -, start, text, same, -⟩ | ⟨e', part', one, h⟩
            · cases same
            · cases one with
              | array => exact next (Nat.lt_succ_of_lt (Nat.lt_succ_self _)) rfl .array added h
        | list added =>
          obtain ⟨inner, entries, rest, rfl, listed, read⟩ :=
            list_of_typePart (List.forall_mem_nil _) h
          refine next ?_ ?_ (.list listed) added read
          · simp only [List.length_cons, List.length_append]
            omega
          · simp
        | letter plain =>
          have read : typePart d (.name (if stretch.filter (· != space) = [] then b :: s else start)
              ((stretch ++ [b]).filter (· != space))) s = .ok (d', tail) := by
            simpa [plain.2.1] using h
          obtain ⟨items, written, same⟩ := ih _ (Nat.lt_succ_self _) read rfl
          exact ⟨items, by simpa using written, same⟩

theorem typePart_eq_ok_iff {d' : Descriptor} {start tail : Bytes} :
    typePart d (.name start []) s = .ok (d', tail) ↔
      ∃ items, TypePartText s items tail ∧ d' = items.foldl TypeItem.add d := by
  constructor
  · intro h
    have read : typePart d (.name start (([] : Bytes).filter (· != space))) s = .ok (d', tail) := h
    exact text_of_typePart read
  · rintro ⟨items, written, rfl⟩
    exact written.typePart_eq d start

end

structure QuerySpec where
  name : Bytes
  pattern : Option Pattern
  items : List TypeItem

namespace QuerySpec

def gathered (q : QuerySpec) : Descriptor :=
  q.items.foldl TypeItem.add { name := q.name, pattern := q.pattern }

def descriptor (q : QuerySpec) : Descriptor := withDefaultType q.gathered

theorem withDefaultType_gains (d : Descriptor) :
    ∃ ts, Gains d ts [] (withDefaultType d) ∧ ∀ t ∈ ts, t = .string ∨ t = .regex := by
  rw [withDefaultType]
  split
  · refine ⟨_, gains_addType _ _, List.forall_mem_singleton.mpr ?_⟩
    split
    · exact .inr rfl
    · exact .inl rfl
  · exact ⟨[], gains_nothing rfl rfl rfl rfl, List.forall_mem_nil _⟩

theorem descriptor_gains (q : QuerySpec) :
    ∃ ts, Gains { name := q.name, pattern := q.pattern } (q.items.flatMap TypeItem.types ++ ts)
      (literalsAmong (q.items.flatMap TypeItem.entries)) q.descriptor ∧
      ∀ t ∈ ts, t = .string ∨ t = .regex := by
  obtain ⟨ts, gains, default⟩ := withDefaultType_gains q.gathered
  have both := (gains_items q.items { name := q.name, pattern := q.pattern }).trans gains
  rw [List.append_nil] at both
  exact ⟨ts, both, default⟩

theorem descriptor_name (q : QuerySpec) : q.descriptor.name = q.name := by
  obtain ⟨ts, gains, -⟩ := q.descriptor_gains
  exact gains.name

end QuerySpec

inductive PatternText : Bytes → Option Pattern → Prop
  | absent {s : Bytes} (blank : Blank s) : PatternText s none
  | given {before source after : Bytes} {p : Pattern} (left : Blank before) (nested : Nested source)
      (compiled : Pattern.compile? source = some p) (right : Blank after) :
      PatternText (before ++ leftBrace :: source ++ rightBrace :: after) (some p)

inductive QueryParamText : Bytes → QuerySpec → Bytes → Prop
  | param {letters pattern mark s tail : Bytes} {q : QuerySpec} (named : q.name ≠ [])
      (spelled : letters.filter (· != space) = q.name)
      (inside : ∀ b ∈ letters, inQueryName b = true) (patterned : PatternText pattern q.pattern)
      (marked : mark = [] ∨ mark = [colon]) (typed : TypePartText s q.items tail) :
      QueryParamText (letters ++ equals :: (pattern ++ (mark ++ s))) q tail

inductive QueryText : Bytes → List QuerySpec → Prop
  | done {s : Bytes} (blank : Blank s) : QueryText s []
  | separator {before s : Bytes} {qs : List QuerySpec} (blank : Blank before)
      (more : QueryText s qs) : QueryText (before ++ ampersand :: s) qs
  | param {before s tail : Bytes} {q : QuerySpec} {qs : List QuerySpec} (blank : Blank before)
      (solid : ∀ b ∈ s.head?, isBlank b = false) (param : QueryParamText s q tail)
      (more : QueryText tail qs) : QueryText (before ++ s) (q :: qs)

section

variable {s tail : Bytes}

theorem filter_skipBlank (untabbed : ∀ b ∈ s, b = space ∨ isBlank b = false) :
    (skipBlank s).filter (· != space) = s.filter (· != space) := by
  induction s with
  | nil => rfl
  | cons b s ih =>
    obtain ⟨first, others⟩ := List.forall_mem_cons.mp untabbed
    rcases first with rfl | solid
    · have skipped : skipBlank (space :: s) = skipBlank s := List.dropWhile_cons_of_pos rfl
      rw [skipped, ih others, List.filter_cons_of_neg (by simp)]
    · rw [skipBlank_cons solid]

theorem NameText.skipBlank {items : List TypeItem} (h : NameText s items) :
    NameText (skipBlank s) items := by
  have same : (Template.skipBlank s).filter (· != space) = s.filter (· != space) := by
    refine filter_skipBlank fun b hb => (h.bytes b hb).imp_right fun letter => ?_
    exact not_isBlank_of_isName letter
  cases h with
  | blank spaces => exact .blank (same.trans spaces)
  | type nameable name => exact .type nameable (same.trans name)

theorem solid_skipBlank (s : Bytes) : ∀ b ∈ (skipBlank s).head?, isBlank b = false := by
  intro b hb
  have first := List.head?_dropWhile_not isBlank s
  rw [skipBlank] at hb
  rw [hb] at first
  exact first

theorem NameText.skipBlank_append {items : List TypeItem} (h : NameText s items)
    (stop : ∀ b ∈ tail.head?, IsMark b) :
    Template.skipBlank (s ++ tail) = Template.skipBlank s ++ tail ∧
      ∀ b ∈ (Template.skipBlank s ++ tail).head?, b ≠ leftBrace ∧ b ≠ colon := by
  have ends (b : UInt8) (mark : IsMark b) :
      isBlank b = false ∧ b ≠ leftBrace ∧ b ≠ colon := by
    rcases mark with rfl | rfl | rfl | rfl <;> decide
  constructor
  · cases tail with
    | nil => rw [List.append_nil, List.append_nil]
    | cons b tail => exact skipBlank_append_cons (ends b (stop b rfl)).1 s tail
  · intro b hb
    cases left : Template.skipBlank s with
    | nil =>
      rw [left] at hb
      exact (ends b (stop b hb)).2
    | cons c rest =>
      rw [left] at hb
      obtain rfl : c = b := Option.some.inj hb
      have member : c ∈ Template.skipBlank s := left ▸ List.mem_cons_self
      have letter : isName c = true := by
        refine (h.bytes c ((List.dropWhile_suffix isBlank).subset member)).resolve_left ?_
        rintro rfl
        have solid := solid_skipBlank s space (by rw [left]; rfl)
        cases solid
      constructor
      · rintro rfl
        exact absurd letter (by decide)
      · rintro rfl
        exact absurd letter (by decide)

theorem MarkText.isMark {m : Bytes} {item : TypeItem} (h : MarkText m item) (rest : Bytes) :
    ∀ b ∈ (m ++ rest).head?, IsMark b := by
  cases h with
  | optional =>
    rintro b ⟨⟩
    exact .inr (.inl rfl)
  | array =>
    rintro b ⟨⟩
    exact .inr (.inr (.inl rfl))
  | list =>
    rintro b ⟨⟩
    exact .inr (.inr (.inr rfl))

theorem TypePartText.skipBlank {items : List TypeItem} (h : TypePartText s items tail) :
    TypePartText (skipBlank s) items tail ∧
      ∀ b ∈ (Template.skipBlank s).head?, b ≠ leftBrace ∧ b ≠ colon := by
  cases h with
  | last named ends =>
    obtain ⟨split, head⟩ := named.skipBlank_append fun b hb => .inl (ends b hb)
    rw [split]
    exact ⟨.last named.skipBlank ends, head⟩
  | mark named marked others =>
    obtain ⟨split, head⟩ := named.skipBlank_append (marked.isMark _)
    rw [split]
    exact ⟨.mark named.skipBlank marked others, head⟩

theorem PatternText.queryPattern_eq {before : Bytes} {pattern : Option Pattern}
    (h : PatternText before pattern) {d : Descriptor} (unset : d.pattern = none)
    (braceless : ∀ b ∈ (skipBlank s).head?, b ≠ leftBrace) :
    queryPattern d (skipBlank (before ++ s)) = .ok ({ d with pattern }, skipBlank s) := by
  cases h with
  | absent blank =>
    have plain : (skipBlank s).head? ≠ some leftBrace := fun opens => braceless _ opens rfl
    rw [skipBlank_append blank, queryPattern, if_neg plain, ← unset]
    rfl
  | @given before source after p left nested compiled right =>
    have text : before ++ leftBrace :: source ++ rightBrace :: after ++ s =
        before ++ leftBrace :: (source ++ rightBrace :: (after ++ s)) := by simp
    have scanned : braced (leftBrace :: (source ++ rightBrace :: (after ++ s))) =
        .ok (p, after ++ s) := braced_eq_ok_iff.mpr ⟨source, rfl, nested, compiled⟩
    rw [text, skipBlank_append left, skipBlank_cons (by decide), queryPattern,
      if_pos List.head?_cons, scanned, ← skipBlank_append right s]
    rfl

theorem text_of_queryPattern {d d' : Descriptor} (unset : d.pattern = none) {left : Bytes}
    (h : queryPattern d (skipBlank s) = .ok (d', left)) :
    ∃ before pattern, s = before ++ left ∧ PatternText before pattern ∧ d' = { d with pattern } := by
  obtain ⟨before, blank, split⟩ := blank_skipped s
  rw [queryPattern] at h
  split at h
  · rename_i opens
    obtain ⟨⟨p, rest⟩, scanned, same⟩ := Scan.bind_eq_ok.mp h
    cases same
    obtain ⟨source, tail, nested, compiled⟩ := braced_eq_ok_iff.mp scanned
    obtain ⟨inner, start⟩ := List.head?_eq_some_iff.mp opens
    obtain ⟨after, blank', split'⟩ := blank_skipped rest
    rw [start, List.tail_cons] at tail
    refine ⟨_, some p, ?_, .given blank nested compiled blank', rfl⟩
    calc
      s = before ++ leftBrace :: (source ++ rightBrace :: (after ++ skipBlank rest)) := by
        rw [← split', ← tail, ← start, ← split]
      _ = _ := by simp
  · cases h
    exact ⟨before, none, split, .absent blank, by rw [← unset]⟩

theorem TypePartText.afterColon {items : List TypeItem} (h : TypePartText s items tail)
    {mark : Bytes} (marked : mark = [] ∨ mark = [colon]) :
    (∀ b ∈ (Template.skipBlank (mark ++ s)).head?, b ≠ leftBrace) ∧
      TypePartText ((after? colon (Template.skipBlank (mark ++ s))).getD
        (Template.skipBlank (mark ++ s))) items tail := by
  rcases marked with rfl | rfl
  · obtain ⟨written, head⟩ := h.skipBlank
    have unmarked : after? colon (Template.skipBlank s) = none := by
      refine Option.eq_none_iff_forall_ne_some.mpr fun rest found => ?_
      exact (head colon (by rw [after?_eq_some_iff.mp found]; rfl)).2 rfl
    rw [List.nil_append, unmarked]
    exact ⟨fun b hb => (head b hb).1, written⟩
  · have solid : Template.skipBlank (colon :: s) = colon :: s := skipBlank_cons (by decide) s
    rw [List.singleton_append, solid, after?_eq_some_iff.mpr rfl]
    refine ⟨?_, h⟩
    rintro b ⟨⟩
    decide

theorem QueryParamText.queryParam_eq {q : QuerySpec} (h : QueryParamText s q tail) :
    queryParam s = .ok (q.descriptor, tail) := by
  obtain ⟨named, spelled, inside, patterned, marked, typed⟩ := h
  rename_i letters pattern mark s
  obtain ⟨braceless, typed⟩ := typed.afterColon marked
  have stop : ∀ b ∈ (equals :: (pattern ++ (mark ++ s))).head?, inQueryName b = false := by
    rintro b ⟨⟩
    decide
  obtain ⟨taken, left⟩ := run_append inside stop
  have value (s : Bytes) : after? equals (equals :: s) = some s := after?_eq_some_iff.mpr rfl
  rw [queryParam]
  simp only [taken, left, spelled, value, if_neg named]
  refine Scan.bind_eq_ok.mpr ⟨_, patterned.queryPattern_eq rfl braceless, ?_⟩
  refine Scan.bind_eq_ok.mpr ⟨_, typed.typePart_eq _ _, ?_⟩
  rfl

theorem text_of_queryParam {d : Descriptor} (h : queryParam s = .ok (d, tail)) :
    ∃ q, QueryParamText s q tail ∧ d = q.descriptor := by
  rw [queryParam] at h
  split at h
  · cases h
  · rename_i named
    split at h
    · cases h
    · rename_i value signed
      obtain ⟨⟨d', left⟩, scanned, h⟩ := Scan.bind_eq_ok.mp h
      obtain ⟨⟨e, rest⟩, typed, same⟩ := Scan.bind_eq_ok.mp h
      cases same
      obtain ⟨pattern, p, split, patterned, rfl⟩ := text_of_queryPattern rfl scanned
      obtain ⟨items, written, rfl⟩ := typePart_eq_ok_iff.mp typed
      have marked : ∃ mark, (mark = [] ∨ mark = [colon]) ∧
          left = mark ++ (after? colon left).getD left := by
        cases found : after? colon left with
        | none => exact ⟨[], .inl rfl, rfl⟩
        | some rest => exact ⟨[colon], .inr rfl, after?_eq_some_iff.mp found⟩
      obtain ⟨mark, marked, left_eq⟩ := marked
      have text : s = s.takeWhile inQueryName ++ equals ::
          (pattern ++ (mark ++ (after? colon left).getD left)) := by
        rw [← left_eq, ← split, ← after?_eq_some_iff.mp signed, List.takeWhile_append_dropWhile]
      have param : QueryParamText _ ⟨_, p, items⟩ tail :=
        .param named rfl (List.all_eq_true.mp List.all_takeWhile) patterned marked written
      rw [← text] at param
      exact ⟨_, param, rfl⟩

theorem queryParam_eq_ok_iff {d : Descriptor} :
    queryParam s = .ok (d, tail) ↔ ∃ q, QueryParamText s q tail ∧ d = q.descriptor := by
  refine ⟨text_of_queryParam, ?_⟩
  rintro ⟨q, written, rfl⟩
  exact written.queryParam_eq

theorem skipBlank_eq_nil_iff : skipBlank s = [] ↔ Blank s := by
  rw [skipBlank, List.dropWhile_eq_nil_iff]
  rfl

theorem skipBlank_eq_cons_iff {b : UInt8} : skipBlank s = b :: tail ↔
    isBlank b = false ∧ ∃ before, Blank before ∧ s = before ++ b :: tail := by
  constructor
  · intro start
    obtain ⟨before, blank, split⟩ := blank_skipped s
    refine ⟨solid_skipBlank s b (by rw [start]; rfl), before, blank, ?_⟩
    rw [← start, ← split]
  · rintro ⟨solid, before, blank, rfl⟩
    rw [skipBlank_append blank, skipBlank_cons solid]

theorem QueryParamText.head {q : QuerySpec} (h : QueryParamText s q tail) :
    ∃ b rest, s = b :: rest ∧ b ≠ ampersand := by
  obtain ⟨named, spelled, inside, -, -, -⟩ := h
  rename_i letters pattern mark s
  cases letters with
  | nil => exact absurd spelled.symm named
  | cons b letters =>
    refine ⟨b, _, rfl, ?_⟩
    rintro rfl
    exact absurd (inside ampersand List.mem_cons_self) (by decide)

theorem declares_iff {ds : List Descriptor} :
    Declares s ds ↔ ∃ qs, QueryText s qs ∧ ds = qs.map QuerySpec.descriptor := by
  constructor
  · intro h
    induction h with
    | done blank => exact ⟨[], .done (skipBlank_eq_nil_iff.mp blank), rfl⟩
    | separator start _ ih =>
      obtain ⟨-, before, blank, rfl⟩ := skipBlank_eq_cons_iff.mp start
      obtain ⟨qs, written, same⟩ := ih
      exact ⟨qs, .separator blank written, same⟩
    | param start other read _ ih =>
      obtain ⟨solid, before, blank, rfl⟩ := skipBlank_eq_cons_iff.mp start
      obtain ⟨q, param, rfl⟩ := queryParam_eq_ok_iff.mp read
      obtain ⟨qs, written, rfl⟩ := ih
      refine ⟨q :: qs, .param blank ?_ param written, rfl⟩
      rintro b ⟨⟩
      exact solid
  · rintro ⟨qs, written, rfl⟩
    induction written with
    | done blank => exact .done (skipBlank_eq_nil_iff.mpr blank)
    | separator blank _ ih =>
      exact .separator (skipBlank_eq_cons_iff.mpr ⟨by decide, _, blank, rfl⟩) ih
    | param blank solid param _ ih =>
      obtain ⟨b, rest, rfl, other⟩ := param.head
      exact .param (skipBlank_eq_cons_iff.mpr ⟨solid b rfl, _, blank, rfl⟩) other
        param.queryParam_eq ih

theorem Declares.unique {ds ds' : List Descriptor} (h : Declares s ds) (h' : Declares s ds') :
    ds = ds' := by
  induction h generalizing ds' with
  | done blank =>
    cases h' with
    | done => rfl
    | separator start' => simp [blank] at start'
    | param start' => simp [blank] at start'
  | separator start _ ih =>
    cases h' with
    | done blank' => simp [start] at blank'
    | separator start' more' =>
      cases start.symm.trans start'
      exact ih more'
    | param start' other' =>
      cases start.symm.trans start'
      exact absurd rfl other'
  | param start other read _ ih =>
    cases h' with
    | done blank' => simp [start] at blank'
    | separator start' =>
      cases start.symm.trans start'
      exact absurd rfl other
    | param start' other' read' more' =>
      cases start.symm.trans start'
      cases read.symm.trans read'
      rw [ih more']

theorem names_descriptors (qs : List QuerySpec) :
    (qs.map QuerySpec.descriptor).map (·.name) = qs.map (·.name) := by
  rw [List.map_map]
  exact List.map_congr_left fun q _ => q.descriptor_name

theorem query_eq_ok_iff {params : Params} :
    query ∅ s = .ok params ↔ ∃ qs, QueryText s qs ∧ (qs.map (·.name)).Nodup ∧
      params = Dictionary.ofList (byName (qs.map QuerySpec.descriptor)) := by
  constructor
  · intro h
    obtain ⟨ds, declares, distinct, -, rfl⟩ := declares_of_query h
    obtain ⟨qs, written, rfl⟩ := declares_iff.mp declares
    exact ⟨qs, written, names_descriptors qs ▸ distinct, rfl⟩
  · rintro ⟨qs, written, distinct, rfl⟩
    have declares := declares_iff.mpr ⟨qs, written, rfl⟩
    exact declares.query_eq ((names_descriptors qs).symm ▸ distinct) fun _ _ => rfl

theorem queryText_of_parse {source : Bytes} {t : Template} (h : parse source = .ok t) :
    (∃ qs, QueryText t.queryPath qs) ∧
      ∀ qs, QueryText t.queryPath qs → ∀ name d, t.queryParams.find? name = some d ↔
        ∃ q ∈ qs, q.name = name ∧ d = q.descriptor := by
  obtain ⟨-, -, -, -, read, -⟩ := pieces_of_parse h
  obtain ⟨qs, written, distinct, params⟩ := query_eq_ok_iff.mp read
  refine ⟨⟨qs, written⟩, fun qs' written' name d => ?_⟩
  have same : qs.map QuerySpec.descriptor = qs'.map QuerySpec.descriptor :=
    (declares_iff.mpr ⟨qs, written, rfl⟩).unique (declares_iff.mpr ⟨qs', written', rfl⟩)
  rw [← names_descriptors, same] at distinct
  rw [params, Dictionary.find?_ofList, same]
  constructor
  · intro last
    obtain ⟨listed, named⟩ := mem_byName_iff.mp (mem_of_latest last)
    obtain ⟨q, hq, rfl⟩ := List.mem_map.mp listed
    exact ⟨q, hq, q.descriptor_name.symm.trans named, rfl⟩
  · rintro ⟨q, hq, rfl, rfl⟩
    refine latest_of_nodup (by rwa [names_byName]) (mem_byName_iff.mpr ?_)
    exact ⟨List.mem_map_of_mem hq, q.descriptor_name⟩

end

end HttpRouting.Template
