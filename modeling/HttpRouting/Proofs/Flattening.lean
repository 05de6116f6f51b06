import HttpRouting.Proofs.QueryText
import HttpRouting.Proofs.Tables
import HttpRouting.Proofs.UrlTemplates

namespace HttpRouting

open Byte Bytes

variable {σ : Type}

namespace Template

theorem nodup_append_of_apart {pairs more : List (Bytes × Descriptor)}
    (distinct : (pairs.map (·.1)).Nodup) (distinct' : (more.map (·.1)).Nodup)
    (apart : ∀ k ∈ (Dictionary.ofList pairs).keys, k ∉ (Dictionary.ofList more).keys) :
    ((pairs ++ more).map (·.1)).Nodup := by
  rw [List.map_append, List.nodup_append]
  refine ⟨distinct, distinct', fun k hk k' hk' same => ?_⟩
  exact apart k (Dictionary.mem_keys_ofList_iff.mpr hk)
    (Dictionary.mem_keys_ofList_iff.mpr (same ▸ hk'))

section

variable {source s s' : Bytes} {t : Template} {g g' : List Segment} {d d' : Params}

theorem parse_urlPath (h : parse source = .ok t) :
    parse t.urlPath = .ok (ofUrl t.urlPath t.segments t.pathParams) := by
  obtain ⟨pieces, -, reads, joins, -⟩ := pieces_of_parse h
  rw [joins]
  exact parse_joined reads

theorem query_queryPath (h : parse source = .ok t) : query ∅ t.queryPath = .ok t.queryParams := by
  obtain ⟨-, -, -, -, read, -⟩ := pieces_of_parse h
  exact read

theorem spells_of_parse (h : parse s = .ok (ofUrl s g d)) :
    ∃ pieces, pieces ≠ [] ∧ Spells pieces s ∧ g = segmentsOf pieces ∧
      d = Dictionary.ofList (paramsOf pieces) := by
  obtain ⟨pieces, full, reads, joins, -⟩ := pieces_of_parse h
  obtain ⟨written, distinct, -, same⟩ := Url.reads_iff.mp reads
  obtain ⟨rfl, rfl, -⟩ := Url.mk.inj same
  exact ⟨pieces, full, ⟨joins, written, distinct⟩, rfl, rfl⟩

theorem parse_append (h : parse s = .ok (ofUrl s g d)) (h' : parse s' = .ok (ofUrl s' g' d'))
    (slashed : s' = [] ∨ s'.head? = some slash) (apart : ∀ k ∈ d.keys, k ∉ d'.keys) :
    parse (s ++ s') = .ok (ofUrl (s ++ s') (g ++ g') (d.merge d')) := by
  obtain ⟨pieces, full, spells, rfl, rfl⟩ := spells_of_parse h
  obtain ⟨pieces', full', spells', rfl, rfl⟩ := spells_of_parse h'
  obtain ⟨p, more, rfl⟩ := List.exists_cons_of_ne_nil full'
  obtain ⟨written, others⟩ := List.forall_mem_cons.mp spells'.written
  have next : (joined (p :: more) ++ []).head?.any (fun b => b != slash && b != question) =
      false := by
    rw [List.append_nil, ← spells'.joins]
    rcases slashed with rfl | first
    · rfl
    · rw [first]
      rfl
  obtain rfl := eq_blank_of_head written next
  have both : Spells (pieces ++ more) (s ++ s') := {
    joins := by rw [joined_append full, ← spells.joins, ← spells'.joins]
    written := List.forall_mem_append.mpr ⟨spells.written, others⟩
    distinct := by
      rw [paramsOf, List.flatMap_append]
      exact nodup_append_of_apart spells.distinct spells'.distinct apart }
  have read := parse_joined both.reads
  rw [← both.joins] at read
  have segments : segmentsOf (pieces ++ more) =
      segmentsOf pieces ++ segmentsOf (.literal [] :: more) := List.flatMap_append
  have params : Dictionary.ofList (paramsOf (pieces ++ more)) =
      (Dictionary.ofList (paramsOf pieces)).merge
        (Dictionary.ofList (paramsOf (.literal [] :: more))) := by
    rw [← Dictionary.ofList_append]
    exact congrArg _ List.flatMap_append
  rw [read, segments, params]

theorem query_append (h : query ∅ s = .ok d) (h' : query ∅ s' = .ok d')
    (apart : ∀ k ∈ d.keys, k ∉ d'.keys) :
    query ∅ (s ++ ampersand :: s') = .ok (d.merge d') := by
  obtain ⟨ds, declares, distinct, -, rfl⟩ := declares_of_query h
  obtain ⟨ds', declares', distinct', -, rfl⟩ := declares_of_query h'
  have both : ((ds ++ ds').map (·.name)).Nodup := by
    rw [← names_byName] at distinct distinct' ⊢
    rw [byName, List.map_append]
    exact nodup_append_of_apart distinct distinct' apart
  rw [(declares.append declares').query_eq both fun _ _ => rfl]
  refine congrArg Except.ok (.trans ?_ (Dictionary.ofList_append (byName ds) (byName ds')))
  rw [byName, List.map_append]
  rfl

theorem query_joinQuery (h : query ∅ s = .ok d) (h' : query ∅ s' = .ok d')
    (apart : ∀ k ∈ d.keys, k ∉ d'.keys) : query ∅ (joinQuery s s') = .ok (d.merge d') := by
  have blank : query ∅ [] = .ok ∅ := query_blank rfl
  rw [joinQuery]
  split
  · rename_i none
    rw [none, blank] at h
    cases h
    rw [h', Dictionary.empty_merge]
  · split
    · rename_i none
      rw [none, blank] at h'
      cases h'
      rw [h, Dictionary.merge_empty]
    · exact query_append h h' apart

end

end Template

open Template

section

variable {line : List (Router σ)}

theorem head_spell
    (slashed : ∀ n ∈ line, n.template.urlPath = [] ∨ n.template.urlPath.head? = some slash) :
    spell line = [] ∨ (spell line).head? = some slash := by
  induction line with
  | nil => exact .inl rfl
  | cons r line ih =>
    obtain ⟨first, others⟩ := List.forall_mem_cons.mp slashed
    rw [spell_cons]
    rcases first with none | first
    · rw [none]
      exact ih others
    · rw [List.head?_append, first]
      exact .inr rfl

theorem mem_keys_foldr_iff (get : Router σ → Params) {k : Bytes} :
    k ∈ (line.foldr (fun r params => (get r).merge params) ∅).keys ↔
      k ∈ line.flatMap fun r => (get r).keys := by
  induction line with
  | nil => exact ⟨nofun, nofun⟩
  | cons r line ih =>
    rw [List.foldr_cons, Dictionary.mem_keys_merge_iff, ih, List.flatMap_cons, List.mem_append]

theorem apart_of_nodup (get : Router σ → Params) {r : Router σ}
    (distinct : ((r :: line).flatMap fun r => (get r).keys).Nodup) :
    (line.flatMap fun r => (get r).keys).Nodup ∧
      ∀ k ∈ (get r).keys, k ∉ (line.foldr (fun r params => (get r).merge params) ∅).keys := by
  obtain ⟨-, below, apart⟩ := List.nodup_append.mp (List.flatMap_cons ▸ distinct)
  exact ⟨below, fun k hk hk' => apart k hk k ((mem_keys_foldr_iff get).mp hk') rfl⟩

theorem parse_along (parsed : ∀ n ∈ line, ∃ source, parse source = .ok n.template)
    (slashed : ∀ n ∈ line.tail, n.template.urlPath = [] ∨ n.template.urlPath.head? = some slash)
    (distinct : (line.flatMap (·.template.pathParams.keys)).Nodup) :
    parse (Entry.along line).urlPath = .ok (ofUrl (Entry.along line).urlPath
      (Entry.along line).segments (Entry.along line).pathParams) := by
  induction line with
  | nil => exact parse_joined (.nil {})
  | cons r line ih =>
    obtain ⟨⟨source, own⟩, others⟩ := List.forall_mem_cons.mp parsed
    obtain ⟨below, apart⟩ := apart_of_nodup (·.template.pathParams) distinct
    have rest := ih others (fun n hn => slashed n (List.mem_of_mem_tail hn)) below
    exact parse_append (parse_urlPath own) rest (head_spell slashed) apart

theorem query_along (parsed : ∀ n ∈ line, ∃ source, parse source = .ok n.template)
    (distinct : (line.flatMap (·.template.queryParams.keys)).Nodup) :
    query ∅ (Entry.along line).queryPath = .ok (Entry.along line).queryParams := by
  induction line with
  | nil => exact query_blank rfl
  | cons r line ih =>
    obtain ⟨⟨source, own⟩, others⟩ := List.forall_mem_cons.mp parsed
    obtain ⟨below, apart⟩ := apart_of_nodup (·.template.queryParams) distinct
    have rest := query_joinQuery (query_queryPath own) (ih others below) apart
    rw [show (Entry.along line).queryPath = queryAlong line from rfl, joinQuery_queryAlong] at rest
    exact rest

end

theorem parse_entry {calls : List (Call σ)} {f : Forest σ} (hf : f.Reached calls) {id : Nat}
    {r : Router σ} {children : Forest σ} (found : f.tree? id = some (r, children)) {k : Bytes}
    {e : Entry σ} (stored : r.routes.find? k = some e) :
    ∃ line ∈ children.lines, spell line = k ∧ e = Entry.along (r :: line) ∧
      ((∀ n ∈ line, n.template.urlPath = [] ∨ n.template.urlPath.head? = some slash) →
        ((r :: line).flatMap (·.template.pathParams.keys)).Nodup →
        parse e.urlPath = .ok (ofUrl e.urlPath e.segments e.pathParams)) ∧
      (((r :: line).flatMap (·.template.queryParams.keys)).Nodup →
        parse (question :: e.queryPath) = .ok (ofQuery e.queryPath e.queryParams)) := by
  obtain ⟨line, hl, spelled, rfl⟩ := (Forest.current_tree hf.current found).1.fresh k e stored
  have parsed : ∀ n ∈ r :: line, ∃ source, parse source = .ok n.template := by
    refine List.forall_mem_cons.mpr ⟨?_, parsed_of_line hf found hl⟩
    exact hf.parsed r.bare (Forest.bare_mem_routers found)
  refine ⟨line, hl, spelled, rfl, fun slashed distinct => ?_, fun distinct => ?_⟩
  · exact parse_along parsed slashed distinct
  · exact parse_question (query_along parsed distinct)

def seamed : List (Call Unit) :=
  [.path 0 (ascii "/v1/?lim=(1|2)  "), .path 1 (ascii "?"),
    .path 2 (ascii "/<id : \x7b^[/?]\x7b2\x7d$\x7d>/a\\?b?sort=\x7b^[&\\\x7b]$\x7d(number|asc)?"),
    .handle 2 .get (some (plainHandler 0)), .nest 1 [some 2], .nest 0 [some 1]]

theorem parse_entry_seamed :
    ∃ r children k e, (Forest.nil.after seamed).tree? 0 = some (r, children) ∧
      r.routes.find? k = some e ∧
      e.segments = [.literal (ascii "v1"), .param (ascii "id"), .literal (ascii "a?b")] ∧
      parse e.urlPath = .ok (ofUrl e.urlPath e.segments e.pathParams) ∧
      e.queryParams.keys = [ascii "lim", ascii "sort"] ∧
      parse (question :: e.queryPath) = .ok (ofQuery e.queryPath e.queryParams) := by
  have reached : Forest.Reached seamed (Forest.nil.after seamed) :=
    Forest.Reached.start.after (by decide +kernel)
  have shown : ((Forest.nil.after seamed).tree? 0).any (fun t =>
      t.1.routes.entries.any (fun e => decide (
        e.2.segments = [.literal (ascii "v1"), .param (ascii "id"), .literal (ascii "a?b")] ∧
          e.2.queryParams.keys = [ascii "lim", ascii "sort"])) &&
      t.2.lines.all fun line => decide (
        (∀ n ∈ line, n.template.urlPath = [] ∨ n.template.urlPath.head? = some slash) ∧
          ((t.1 :: line).flatMap (·.template.pathParams.keys)).Nodup ∧
          ((t.1 :: line).flatMap (·.template.queryParams.keys)).Nodup)) = true := by decide +kernel
  obtain ⟨⟨r, children⟩, found, shown⟩ := (Option.any_eq_true _ _).mp shown
  obtain ⟨entry, apart⟩ := Bool.and_eq_true_iff.mp shown
  obtain ⟨⟨k, e⟩, listed, entry⟩ := List.any_eq_true.mp entry
  obtain ⟨segments, names⟩ := of_decide_eq_true entry
  have stored := Dictionary.mem_entries_iff.mp listed
  obtain ⟨line, hl, -, -, url, query⟩ := parse_entry reached found stored
  obtain ⟨slashed, paths, queries⟩ := of_decide_eq_true (List.all_eq_true.mp apart line hl)
  exact ⟨r, children, k, e, found, stored, segments, url slashed paths, names, query queries⟩

end HttpRouting
