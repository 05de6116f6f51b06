import HttpRouting.Proofs.QueryGrammar
import HttpRouting.Proofs.QuerySections

/-!
Spaces in query sections. They may be put anywhere but into a pattern, a parenthesised list or the
brackets of an array. Main statement: a template is taken with such spaces just if it is taken
without them, and it then declares the same.
-/

namespace HttpRouting

open Byte Bytes

namespace Scan

variable {α β α' β' : Type} {R : α → β → Prop} {S : α' → β' → Prop}

inductive Alike (R : α → β → Prop) : Scan α → Scan β → Prop
  | failed (e e' : Blame) : Alike R (.error e) (.error e')
  | read {a : α} {b : β} (related : R a b) : Alike R (.ok a) (.ok b)

theorem Alike.bind {x : Scan α} {y : Scan β} {f : α → Scan α'} {g : β → Scan β'}
    (h : Alike R x y) (h' : ∀ a b, x = .ok a → R a b → Alike S (f a) (g b)) :
    Alike S (x >>= f) (y >>= g) := by
  cases h with
  | failed e e' => exact .failed e e'
  | read related => exact h' _ _ rfl related

theorem Alike.bind_eq {x y : Scan α} {f : α → Scan α'} {g : α → Scan β'} (h : Alike Eq x y)
    (h' : ∀ a, Alike S (f a) (g a)) : Alike S (x >>= f) (y >>= g) :=
  h.bind fun a _ _ same => same ▸ h' a

end Scan

open Scan

namespace Template

inductive Place
  | name
  | value
  | pattern (depth : Nat) (escaped : Bool)
  | types
  | bracket
  | list
deriving DecidableEq

namespace Place

def afterType (b : UInt8) : Place :=
  if b = ampersand then name
  else if b = leftBracket then bracket
  else if b = leftParen then list
  else types

def after : Place → UInt8 → Place
  | name, b => if b = equals then value else name
  | value, b => if isBlank b then value else if b = leftBrace then pattern 0 false else afterType b
  | pattern depth escaped, b =>
    match braceStep depth escaped b with
    | none => types
    | some (depth, escaped) => pattern depth escaped
  | types, b => afterType b
  | bracket, _ => types
  | list, b => if b = rightParen then types else if b = ampersand then name else list

def Open : Place → Bytes → Prop
  | pattern _ _, _ | list, _ => False
  | bracket, rest => rest = []
  | _, _ => True

instance : ∀ (p : Place) (rest : Bytes), Decidable (p.Open rest)
  | pattern _ _, _ | list, _ => .isFalse id
  | bracket, rest => inferInstanceAs (Decidable (rest = []))
  | name, _ | value, _ | types, _ => .isTrue trivial

end Place

/-- The second text is the first one with spaces put into it, the first byte standing at `p`. -/
inductive Spaced : Place → Bytes → Bytes → Prop
  | nil (p : Place) : Spaced p [] []
  | keep {p : Place} {s s' : Bytes} (b : UInt8) (more : Spaced (p.after b) s s') :
      Spaced p (b :: s) (b :: s')
  | insert {p : Place} {s s' : Bytes} (free : p.Open s) (more : Spaced p s s') :
      Spaced p s (space :: s')

section

variable {p : Place} {s s' : Bytes} {b : UInt8}

theorem spaced_nil_iff : Spaced p s [] ↔ s = [] := by
  constructor
  · rintro ⟨⟩
    rfl
  · rintro rfl
    exact .nil p

theorem spaced_cons_iff : Spaced p s (b :: s') ↔
    (s.head? = some b ∧ Spaced (p.after b) s.tail s') ∨
      (b = space ∧ p.Open s ∧ Spaced p s s') := by
  constructor
  · rintro (_ | ⟨_, more⟩ | ⟨free, more⟩)
    · exact .inl ⟨rfl, more⟩
    · exact .inr ⟨rfl, free, more⟩
  · rintro (⟨first, more⟩ | ⟨rfl, free, more⟩)
    · obtain ⟨rest, rfl⟩ := List.head?_eq_some_iff.mp first
      exact .keep b more
    · exact .insert free more

end

instance Spaced.decidable : ∀ (p : Place) (s s' : Bytes), Decidable (Spaced p s s')
  | _, s, [] => decidable_of_iff (s = []) spaced_nil_iff.symm
  | p, s, b :: s' =>
    have := Spaced.decidable (p.after b) s.tail s'
    have := Spaced.decidable p s s'
    decidable_of_iff _ spaced_cons_iff.symm

inductive Abreast (p : Place) : Bytes → Bytes → Prop
  | done : Abreast p [] []
  | first {s s' : Bytes} (b : UInt8) (more : Spaced (p.after b) s s') :
      Abreast p (b :: s) (b :: s')

section

variable {p : Place} {s s' : Bytes}

theorem Abreast.spaced (h : Abreast p s s') : Spaced p s s' := by
  cases h with
  | done => exact .nil p
  | first b more => exact .keep b more

def Place.Loose (p : Place) : Prop := ∀ b, isBlank b = true → p.after b = p

theorem loose_name : Place.name.Loose := by
  intro b blank
  obtain rfl | rfl := eq_of_isBlank blank <;> decide

theorem loose_value : Place.value.Loose := fun _ blank => if_pos blank

theorem loose_types : Place.types.Loose := by
  intro b blank
  obtain rfl | rfl := eq_of_isBlank blank <;> decide

theorem Spaced.skipBlank_abreast (h : Spaced p s s') (loose : p.Loose) :
    Abreast p (skipBlank s) (skipBlank s') := by
  induction h with
  | nil p => exact .done
  | @keep p s s' b more ih =>
    cases blank : isBlank b with
    | true =>
      have same := loose b blank
      rw [same] at ih
      rw [skipBlank, skipBlank, List.dropWhile_cons_of_pos blank,
        List.dropWhile_cons_of_pos blank]
      exact ih loose
    | false =>
      rw [skipBlank_cons blank, skipBlank_cons blank]
      exact .first b more
  | insert _ _ ih => exact ih loose

theorem Spaced.queryName_alike (h : Spaced .name s s') :
    (s.takeWhile inQueryName).filter (· != space) =
        (s'.takeWhile inQueryName).filter (· != space) ∧
      Abreast .name (s.dropWhile inQueryName) (s'.dropWhile inQueryName) := by
  generalize here : Place.name = p at h
  induction h with
  | nil => exact ⟨rfl, .done⟩
  | @keep p s s' b more ih =>
    subst here
    cases inside : inQueryName b with
    | true =>
      have other : b ≠ equals := by
        rintro rfl
        exact absurd inside (by decide)
      have same : Place.name.after b = .name := if_neg other
      rw [same] at ih
      obtain ⟨name, rest⟩ := ih rfl
      simp only [List.takeWhile_cons_of_pos inside, List.dropWhile_cons_of_pos inside,
        List.filter_cons, name, true_and]
      exact rest
    | false =>
      have stop : ¬inQueryName b = true := Bool.eq_false_iff.mp inside
      simp only [List.takeWhile_cons_of_neg stop, List.dropWhile_cons_of_neg stop,
        true_and]
      exact .first b more
  | insert _ _ ih => exact ih here

theorem Spaced.balanced_alike {depth : Nat} {escaped : Bool}
    (h : Spaced (.pattern depth escaped) s s') :
    (balanced depth escaped s = none ∧ balanced depth escaped s' = none) ∨
      ∃ text rest rest', balanced depth escaped s = some (text, rest) ∧
        balanced depth escaped s' = some (text, rest') ∧ Spaced .types rest rest' := by
  generalize here : Place.pattern depth escaped = p at h
  induction h generalizing depth escaped with
  | nil => exact .inl ⟨rfl, rfl⟩
  | @keep p s s' b more ih =>
    subst here
    rw [balanced_cons, balanced_cons]
    rw [Place.after] at more ih
    cases step : braceStep depth escaped b with
    | none =>
      rw [step] at more
      exact .inr ⟨[], s, s', rfl, rfl, more⟩
    | some next =>
      rw [step] at ih
      rcases ih rfl with ⟨none, none'⟩ | ⟨text, rest, rest', closed, closed', spaced⟩
      · exact .inl ⟨by simp [none], by simp [none']⟩
      · exact .inr ⟨b :: text, rest, rest', by simp [closed], by simp [closed'], spaced⟩
  | insert free =>
    subst here
    exact absurd free id

def SameAt {α : Type} (p : Place) (x y : α × Bytes) : Prop := x.1 = y.1 ∧ Spaced p x.2 y.2

theorem Spaced.braced_alike (b : UInt8) (h : Spaced (.pattern 0 false) s s') :
    Alike (SameAt .types) (braced (b :: s)) (braced (b :: s')) := by
  rw [braced, braced, List.tail_cons, List.tail_cons]
  rcases h.balanced_alike with ⟨none, none'⟩ | ⟨text, rest, rest', closed, closed', spaced⟩
  · rw [none, none']
    exact .failed _ _
  · rw [closed, closed']
    dsimp only
    cases Pattern.compile? text with
    | none => exact .failed _ _
    | some pattern => exact .read ⟨rfl, spaced⟩

theorem Spaced.queryPattern_alike (h : Spaced .value s s') (d : Descriptor) :
    Alike (fun x y => x.1 = y.1 ∧ Abreast .types x.2 y.2) (queryPattern d (skipBlank s))
      (queryPattern d (skipBlank s')) := by
  have solid := solid_skipBlank s
  have both := h.skipBlank_abreast loose_value
  generalize skipBlank s = s at solid both
  generalize skipBlank s' = s' at both
  rw [queryPattern, queryPattern]
  cases both with
  | done => exact .read ⟨rfl, .done⟩
  | first b more =>
    rw [Place.after, if_neg (Bool.eq_false_iff.mp (solid b rfl))] at more
    by_cases opens : b = leftBrace
    · rw [if_pos opens] at more
      rw [if_pos (by rw [opens]; rfl), if_pos (by rw [opens]; rfl)]
      refine (more.braced_alike b).bind fun x y _ same => ?_
      exact .read ⟨by rw [same.1], same.2.skipBlank_abreast loose_types⟩
    · rw [if_neg opens] at more
      have other (s : Bytes) : ¬(b :: s).head? = some leftBrace := by simpa using opens
      rw [if_neg (other _), if_neg (other _)]
      exact .read ⟨rfl, .first b more⟩

theorem Abreast.afterColon_spaced (h : Abreast .types s s') :
    Spaced .types ((after? colon s).getD s) ((after? colon s').getD s') := by
  cases h with
  | done => exact .nil _
  | @first s s' b more =>
    by_cases mark : b = colon
    · subst mark
      exact more
    · simp only [after?, if_neg mark, Option.getD_none]
      exact .keep b more

inductive TypePart.Twin : Place → TypePart → TypePart → Prop
  | name (start start' text : Bytes) : Twin .types (.name start text) (.name start' text)
  | array (start start' : Bytes) : Twin .bracket (.array start) (.array start')
  | list (start start' entry : Bytes) : Twin .list (.list start entry) (.list start' entry)

theorem alike_addNamed (d : Descriptor) (start start' text : Bytes) :
    Alike Eq (addNamed d start text) (addNamed d start' text) := by
  rw [addNamed, addNamed]
  split
  · exact .read rfl
  · split
    · exact .read rfl
    · exact .failed _ _

theorem alike_addEntry (d : Descriptor) (start start' entry rest rest' : Bytes) :
    Alike Eq (addEntry d start entry rest) (addEntry d start' entry rest') := by
  simp only [addEntry]
  split
  · exact .failed _ _
  · split <;> exact .read rfl

section

variable {b : UInt8} {d : Descriptor} (start start' : Bytes)

theorem alike_name_cons (text : Bytes) (more : Spaced (Place.afterType b) s s')
    (ih : ∀ {d part part'}, TypePart.Twin (Place.afterType b) part part' →
      Alike (SameAt .name) (typePart d part s) (typePart d part' s')) :
    Alike (SameAt .name) (typePart d (.name start text) (b :: s))
      (typePart d (.name start' text) (b :: s')) := by
  have named := alike_addNamed d start start' text
  rw [Place.afterType] at more ih
  rw [typePart, typePart]
  split
  · rename_i ends
    subst ends
    exact named.bind_eq fun e => .read ⟨rfl, .keep ampersand more⟩
  · rename_i goes
    rw [if_neg goes] at ih
    split
    · rename_i blank
      subst blank
      exact ih (.name ..)
    · split
      · rename_i mark
        subst mark
        exact named.bind_eq fun e => ih (.name ..)
      · split
        · rename_i opens
          rw [if_pos opens] at ih
          exact named.bind_eq fun e => ih (.array ..)
        · rename_i single
          rw [if_neg single] at ih
          split
          · rename_i opens
            rw [if_pos opens] at ih
            exact named.bind_eq fun e => ih (.list ..)
          · rename_i unlisted
            rw [if_neg unlisted] at ih
            exact ih (.name ..)

theorem alike_array_cons
    (ih : ∀ {d part part'}, TypePart.Twin .types part part' →
      Alike (SameAt .name) (typePart d part s) (typePart d part' s')) :
    Alike (SameAt .name) (typePart d (.array start) (b :: s))
      (typePart d (.array start') (b :: s')) := by
  rw [typePart, typePart]
  split
  · exact ih (.name ..)
  · exact .failed _ _

theorem alike_list_cons (entry : Bytes)
    (ih : ∀ {d part part'}, TypePart.Twin (Place.list.after b) part part' →
      Alike (SameAt .name) (typePart d part s) (typePart d part' s')) :
    Alike (SameAt .name) (typePart d (.list start entry) (b :: s))
      (typePart d (.list start' entry) (b :: s')) := by
  have added := alike_addEntry d start start' entry s s'
  rw [Place.after] at ih
  rw [typePart, typePart]
  split
  · exact .failed _ _
  · rename_i goes
    split
    · rename_i closes
      rw [if_pos closes] at ih
      exact added.bind_eq fun e => ih (.name ..)
    · rename_i inside
      rw [if_neg inside, if_neg goes] at ih
      split
      · exact added.bind_eq fun e => ih (.list ..)
      · exact ih (.list ..)

end

theorem Spaced.typePart_alike (h : Spaced p s s') {d : Descriptor} {part part' : TypePart}
    (twin : TypePart.Twin p part part') :
    Alike (SameAt .name) (typePart d part s) (typePart d part' s') := by
  induction h generalizing d part part' with
  | nil p =>
    cases twin with
    | name start start' text =>
      exact (alike_addNamed d start start' text).bind_eq fun e => .read ⟨rfl, .nil _⟩
    | array => exact .failed _ _
    | list => exact .failed _ _
  | keep b more ih =>
    cases twin with
    | name start start' text => exact alike_name_cons start start' text more ih
    | array start start' => exact alike_array_cons start start' ih
    | list start start' entry => exact alike_list_cons start start' entry ih
  | @insert p s s' free more ih =>
    cases twin with
    | name start start' text =>
      have skipped : typePart d (.name start' text) (space :: s') =
          typePart d (.name start' text) s' := by
        rw [typePart, if_neg (by decide), if_pos rfl]
      rw [skipped]
      exact ih (.name ..)
    | array start start' =>
      obtain rfl : s = [] := free
      exact .failed _ _
    | list => exact absurd free id

theorem Spaced.queryParam_alike (h : Spaced .name s s') :
    Alike (SameAt .name) (queryParam s) (queryParam s') := by
  obtain ⟨name, rest⟩ := h.queryName_alike
  simp only [queryParam, name]
  split
  · exact .failed _ _
  · generalize s.dropWhile inQueryName = s at rest
    generalize s'.dropWhile inQueryName = s' at rest
    cases rest with
    | done => exact .failed _ _
    | @first s s' b more =>
      by_cases sign : b = equals
      · subst sign
        have value (s : Bytes) : after? equals (equals :: s) = some s :=
          after?_eq_some_iff.mpr rfl
        simp only [value]
        refine (Spaced.queryPattern_alike more _).bind fun x y _ same => ?_
        rw [same.1]
        refine (same.2.afterColon_spaced.typePart_alike (.name ..)).bind fun x' y' _ same' => ?_
        exact .read ⟨by rw [same'.1], same'.2⟩
      · simp only [after?, if_neg sign]
        exact .failed _ _

theorem query_cons {params : Params} {b : UInt8} {rest : Bytes} (start : skipBlank s = b :: rest)
    (other : b ≠ ampersand) :
    query params s = (queryParam (b :: rest) >>= fun x =>
      if params.contains x.1.name then throw (.quoting .duplicateQueryParam (b :: rest) x.1.name)
      else query (params.insert x.1.name x.1) x.2) := by
  rw [query]
  split
  · rename_i blank
    rw [blank] at start
    cases start
  · rename_i b' rest' start'
    rw [start] at start'
    cases start'
    rw [if_neg other]
    split
    · rename_i failed
      conv_rhs => rw [failed]
      rfl
    · rename_i read
      conv_rhs => rw [read]
      rfl

theorem Spaced.query_alike (h : Spaced .name s s') (params : Params) :
    Alike Eq (query params s) (query params s') := by
  -- By the length, as a parameter is read in one go.
  induction size : s.length using Nat.strongRecOn generalizing s s' params with
  | _ n ih =>
    subst size
    have shorter := length_skipBlank_le s
    have both := h.skipBlank_abreast loose_name
    generalize start : skipBlank s = t at shorter both
    generalize start' : skipBlank s' = t' at both
    cases both with
    | done =>
      rw [query_blank start, query_blank start']
      exact .read rfl
    | @first t t' b more =>
      rw [List.length_cons] at shorter
      by_cases separates : b = ampersand
      · subst separates
        rw [query_separator start, query_separator start']
        exact ih _ shorter more params rfl
      · rw [query_cons start separates, query_cons start' separates]
        refine (Spaced.queryParam_alike (.keep b more)).bind fun x y read same => ?_
        have tail := length_of_queryParam read
        rw [same.1]
        split
        · exact .failed _ _
        · refine ih _ ?_ same.2 _ rfl
          rw [List.length_cons] at tail
          omega

end

theorem alike_url {source start q : Bytes} (apart : querySection? source = some (start, q))
    (q' : Bytes) :
    Alike (fun u u' => u.query = some q ∧ u' = { u with query := some q' }) (url {} [] source)
      (url {} [] (start ++ question :: q')) := by
  obtain ⟨split, again⟩ := UrlPlace.split?_eq_some apart
  cases read : url {} [] source with
  | ok u =>
    obtain ⟨asked, other⟩ := url_split read apart nofun
    rw [other q']
    exact .read ⟨asked, rfl⟩
  | error e =>
    cases read' : url {} [] (start ++ question :: q') with
    | error e' => exact .failed e e'
    | ok u' =>
      obtain ⟨-, other⟩ := url_split read' (again q') nofun
      rw [split, other q] at read
      cases read

theorem alike_scan {source start q q' : Bytes} (apart : querySection? source = some (start, q))
    (spaced : Spaced .name q q') :
    Alike (fun t t' => t'.queryParams = t.queryParams ∧ t'.segments = t.segments ∧
        t'.pathParams = t.pathParams) (scan source) (scan (start ++ question :: q')) := by
  refine (alike_url apart q').bind fun u u' _ same => ?_
  obtain ⟨asked, rfl⟩ := same
  rw [asked]
  refine (spaced.query_alike ∅).bind fun params params' _ same => ?_
  exact .read ⟨same.symm, rfl, rfl⟩

theorem parse_spaced {source start q q' : Bytes}
    (apart : querySection? source = some (start, q)) (spaced : Spaced .name q q') :
    ((∃ t, parse source = .ok t) ↔ ∃ t, parse (start ++ question :: q') = .ok t) ∧
      ∀ t t', parse source = .ok t → parse (start ++ question :: q') = .ok t' →
        t'.queryParams = t.queryParams ∧ t'.segments = t.segments ∧
          t'.pathParams = t.pathParams := by
  simp only [parse_eq_ok_iff]
  have alike := alike_scan apart spaced
  generalize scan source = x at alike
  generalize scan (start ++ question :: q') = y at alike
  cases alike with
  | failed => exact ⟨⟨nofun, nofun⟩, nofun⟩
  | read same =>
    refine ⟨⟨fun _ => ⟨_, rfl⟩, fun _ => ⟨_, rfl⟩⟩, fun t t' h h' => ?_⟩
    cases h
    cases h'
    exact same

def airyUrl : Bytes := ascii "/a\\?/<id>"

def denseQuery : Bytes := ascii "sort=\x7b^\\?\x7b2\x7d$\x7d:number(asc|desc)[]?&code=string"

def airyQuery : Bytes :=
  ascii " so rt = \x7b^\\?\x7b2\x7d$\x7d : num ber (asc|desc) [] ? & c ode= string "

theorem parse_spaced_airy :
    ∃ t t' d, parse (airyUrl ++ question :: denseQuery) = .ok t ∧
      parse (airyUrl ++ question :: airyQuery) = .ok t' ∧ t'.queryParams = t.queryParams ∧
      t'.segments = t.segments ∧ t'.queryParams.find? (ascii "sort") = some d ∧
      d.types = [.number] ∧ d.choices = [ascii "asc", ascii "desc"] := by
  have apart : querySection? (airyUrl ++ question :: denseQuery) = some (airyUrl, denseQuery) := by
    decide +kernel
  have spaced : Spaced .name denseQuery airyQuery := by decide +kernel
  have shown : ((parse (airyUrl ++ question :: denseQuery)).toOption.bind fun t =>
      t.queryParams.find? (ascii "sort")).map (fun d => (d.types, d.choices)) =
        some ([.number], [ascii "asc", ascii "desc"]) := by decide +kernel
  obtain ⟨taken, alike⟩ := parse_spaced apart spaced
  cases parsed : parse (airyUrl ++ question :: denseQuery) with
  | error e =>
    rw [parsed] at shown
    cases shown
  | ok t =>
    obtain ⟨t', parsed'⟩ := taken.mp ⟨t, parsed⟩
    obtain ⟨params, segments, -⟩ := alike t t' parsed parsed'
    rw [parsed] at shown
    obtain ⟨d, found, same⟩ := Option.map_eq_some_iff.mp shown
    obtain ⟨types, choices⟩ := Prod.mk.inj same
    exact ⟨t, t', d, rfl, parsed', params, segments, by rwa [params], types, choices⟩

end Template

end HttpRouting
