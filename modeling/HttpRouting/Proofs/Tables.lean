import HttpRouting.Proofs.Histories

/-!
The tables of a forest that calls have led to. Main statement: at every time every table has one
key for each line below its router, and at the key what such a line serves now, by what the calls
so far have declared of the routers along it.
-/

namespace HttpRouting

open Router

variable {σ : Type}

namespace Forest

theorem current_tree {f : Forest σ} (h : f.Current) {id : Nat} {r : Router σ} {children : Forest σ}
    (found : f.tree? id = some (r, children)) : r.Current children ∧ children.Current := by
  induction f with
  | nil => cases found
  | cons first below siblings ihc ihs =>
    obtain ⟨top, under, beside⟩ := h
    rw [tree?_cons] at found
    split at found
    · cases found
      exact ⟨top, under⟩
    · rw [Option.or_eq_some_iff] at found
      rcases found with found | ⟨-, found⟩
      · exact ihc under found
      · exact ihs beside found

theorem current_append {f g : Forest σ} (hf : f.Current) (hg : g.Current) :
    (f.append g).Current := by
  induction f with
  | nil => exact hg
  | cons r children siblings _ ih => exact ⟨hf.1, hf.2.1, ih hf.2.2⟩

theorem current_removeRoot {f : Forest σ} (h : f.Current) (id : Nat) :
    (f.removeRoot id).Current := by
  induction f with
  | nil => exact h
  | cons r children siblings _ ih =>
    rw [removeRoot]
    split
    · exact h.2.2
    · exact ⟨h.1, h.2.1, ih h.2.2⟩

theorem value_rebuild_cons (r : Router σ) (children siblings : Forest σ) :
    (cons r children siblings).rebuild.value =
      cons (r.absorbAll children.rebuild.value.roots) children.rebuild.value
        siblings.rebuild.value := rfl

theorem lines_rebuild (f : Forest σ) : f.rebuild.value.lines = f.lines := by
  induction f with
  | nil => rfl
  | cons r children siblings ihc ihs =>
    rw [value_rebuild_cons, lines_congr (bare_absorbAll r _), lines, lines, ihc, ihs]

theorem current_rebuild {f : Forest σ} (h : f.Current) : f.rebuild.value.Current := by
  induction f with
  | nil => exact h
  | cons r children siblings ihc ihs =>
    obtain ⟨top, under, beside⟩ := h
    refine ⟨current_absorbAll (ihc under) fun k e hk => ?_, ihc under, ihs beside⟩
    obtain ⟨line, hl, spelled, -⟩ := top.fresh k e hk
    exact ⟨line, lines_rebuild children ▸ hl, spelled⟩

theorem spelled_of_redeclared {r r' : Router σ} (template : r'.template = r.template)
    (handlers : r'.handlers.isEmpty = true → r.handlers.isEmpty = true) {children : Forest σ} :
    ∀ line ∈ (cons r children nil).lines,
      ∃ line' ∈ (cons r' children nil).lines, spell line' = spell line := by
  intro line hl
  rcases mem_lines_cons.mp hl with ⟨served, rfl⟩ | ⟨rest, hr, rfl⟩ | hl
  · refine ⟨[r'.bare], mem_lines_cons.mpr (.inl ⟨?_, rfl⟩), by simp [template]⟩
    cases empty : r'.handlers.isEmpty with
    | false => rfl
    | true => rw [handlers empty] at served; cases served
  · exact ⟨r'.bare :: rest, mem_lines_cons.mpr (.inr (.inl ⟨rest, hr, rfl⟩)), by simp [template]⟩
  · cases hl

theorem keeps_middlewares (added : List (Middleware σ)) :
    Keeps (fun r children => do
      let r := { r with middlewares := r.middlewares ++ added }
      return (← children.roots.foldlM Router.absorb r, children)) where
  current r children top under := by
    refine ⟨current_absorbAll under fun k e hk => ?_, under⟩
    obtain ⟨line, hl, spelled, -⟩ := top.fresh k e hk
    exact ⟨line, hl, spelled⟩
  spelled r children := by
    let r' := ({ r with middlewares := r.middlewares ++ added } : Router σ).absorbAll children.roots
    have template : r'.template = r.template := template_absorbAll _ _
    have handlers : r'.handlers = r.handlers := handlers_absorbAll _ _
    exact spelled_of_redeclared template fun empty => handlers ▸ empty

theorem keeps_handler (m : Method) (h : Handler σ) :
    Keeps (fun r children =>
      return ({ r with handlers := withHandler r.handlers m h }, children)) where
  current r children top under := ⟨top.congr rfl rfl rfl, under⟩
  spelled r children := by
    apply spelled_of_redeclared
    · rfl
    · intro empty
      exact absurd empty (by simp [withHandler, Dictionary.isEmpty_insert])

theorem keeps_rebuild :
    Keeps (fun (r : Router σ) children => do
      let children ← children.rebuild
      return (← children.roots.foldlM Router.absorb r, children)) where
  current r children top under := by
    refine ⟨current_absorbAll (current_rebuild under) fun k e hk => ?_, current_rebuild under⟩
    obtain ⟨line, hl, spelled, -⟩ := top.fresh k e hk
    exact ⟨line, lines_rebuild children ▸ hl, spelled⟩
  spelled r children line hl := by
    refine ⟨line, ?_, rfl⟩
    change line ∈ (cons (r.absorbAll children.rebuild.value.roots) children.rebuild.value nil).lines
    rw [lines_congr (bare_absorbAll r _), lines, lines_rebuild]
    exact hl

theorem keeps_nested {child : Router σ} {below : Forest σ} (hc : child.Current below)
    (hb : below.Current) (text : Router σ → Bytes) :
    Keeps (fun r children => do
      Noted.note .debug (text r)
      return (← r.absorb child, children.append (cons child below nil))) where
  current r children top under := by
    have rev : Revised children (children.append (cons child below nil)) child below := by
      constructor <;> intro line hl
      · left
        rw [lines_append]
        exact List.mem_append_left _ hl
      · rw [lines_append]
        exact List.mem_append_right _ hl
      · rwa [lines_append, List.mem_append] at hl
    exact ⟨top.absorb rev hc, current_append under ⟨hc, hb, trivial⟩⟩
  spelled r children line hl := by
    refine ⟨line, ?_, rfl⟩
    change line ∈ (cons (r.absorb child).value (children.append (cons child below nil)) nil).lines
    rw [lines_congr (bare_absorb r child), mem_lines_cons, lines_append]
    rcases mem_lines_cons.mp hl with hl | ⟨rest, hr, rfl⟩ | hl
    · exact .inl hl
    · exact .inr (.inl ⟨rest, List.mem_append_left _ hr, rfl⟩)
    · cases hl

theorem current_nestOne {f : Forest σ} (hf : f.Current) {r : Router σ} {child : Option Nat}
    {d : Declared σ} (h : f.nestOne r child = .ok d) : d.forest.Current := by
  obtain ⟨child, below, -, found, -, -, -, rfl⟩ := nestOne_eq_ok h
  obtain ⟨hc, hb⟩ := current_tree hf found
  exact (keeps_nested hc hb _).declare (current_removeRoot hf child.ident) r.ident

theorem current_nest {f : Forest σ} (hf : f.Current) (id : Nat) (children : List (Option Nat)) :
    (f.nest id children).forest.Current := by
  induction children generalizing f with
  | nil => exact hf
  | cons child rest ih =>
    rw [nest]
    split
    · exact hf
    · split
      · exact hf
      · rename_i one nested
        exact ih (current_nestOne hf nested)

theorem current_apply {f : Forest σ} (hf : f.Current) (c : Call σ) :
    (c.apply f).forest.Current := by
  cases c with
  | path ident source =>
    rw [Call.apply]
    split
    · exact hf
    · refine current_append hf ⟨⟨?_, ?_⟩, trivial, trivial⟩
      · rintro _ ⟨⟩
      · rintro _ _ ⟨⟩
  | nest id children => exact current_nest hf id children
  | middlewares id added => exact (keeps_middlewares added).declare hf id
  | handle id m h =>
    change (f.handle id m h).forest.Current
    unfold handle
    split
    · exact hf
    · exact hf
    · split
      · exact hf
      · exact (keeps_handler m _).declare hf id
  | compose id => exact keeps_rebuild.declare hf id

theorem Reached.current {calls : List (Call σ)} {f : Forest σ} (h : Reached calls f) :
    f.Current := by
  induction h with
  | start => trivial
  | call c _ _ ih => exact current_apply ih c

end Forest

def Router.table (r : Router σ) (lines : List (List (Router σ))) : RouteTable σ :=
  Dictionary.ofList (lines.map (fun line => (spell line, Entry.along (r :: line))))

theorem Router.find?_table (r : Router σ) (lines : List (List (Router σ))) (k : Bytes) :
    (r.table lines).find? k =
      latest k (lines.map (fun line => (spell line, Entry.along (r :: line)))) :=
  Dictionary.find?_ofList _ k

theorem Router.Current.routes_eq_table {r : Router σ} {children : Forest σ}
    (h : r.Current children) (distinct : (children.lines.map spell).Nodup) :
    r.routes = r.bare.table children.lines := by
  apply Dictionary.ext_find?
  intro k
  simp only [find?_table, along_bare]
  cases hk : r.routes.find? k with
  | none =>
    symm
    rw [latest_eq_none_iff]
    intro e he
    obtain ⟨line, hl, rfl⟩ := List.mem_map.mp he
    rintro rfl
    have covered := h.covers line hl
    rw [hk] at covered
    cases covered
  | some e =>
    obtain ⟨line, hl, rfl, rfl⟩ := h.fresh k e hk
    symm
    apply latest_of_nodup
    · rwa [List.map_map]
    · exact List.mem_map.mpr ⟨line, hl, rfl⟩

theorem routes_reflect_lines {calls : List (Call σ)} {f : Forest σ} (hf : f.Reached calls)
    {id : Nat} {r : Router σ} {children : Forest σ} (found : f.tree? id = some (r, children)) :
    (∀ k, k ∈ r.routes.keys ↔ ∃ line ∈ children.lines, spell line = k) ∧
      (∀ k e, r.routes.find? k = some e →
        ∃ line ∈ children.lines, spell line = k ∧ e = Entry.along (r :: line)) ∧
      ((children.lines.map spell).Nodup → r.routes = r.bare.table children.lines) ∧
      ∀ line ∈ children.lines, ∀ n ∈ r.bare :: line, Forest.DeclaredBy calls n := by
  obtain ⟨current, -⟩ := Forest.current_tree hf.current found
  refine ⟨fun k => ⟨fun hk => ?_, ?_⟩, current.fresh, current.routes_eq_table,
    fun line hl => List.forall_mem_cons.mpr ⟨?_, fun n hn => ?_⟩⟩
  · obtain ⟨e, he⟩ := Option.isSome_iff_exists.mp (Dictionary.mem_keys_iff.mp hk)
    obtain ⟨line, hl, spelled, -⟩ := current.fresh k e he
    exact ⟨line, hl, spelled⟩
  · rintro ⟨line, hl, rfl⟩
    exact Dictionary.mem_keys_iff.mpr (current.covers line hl)
  · exact hf.declaredBy r.bare (Forest.bare_mem_routers found)
  · exact hf.declaredBy n (mem_routers_below found hl n hn)

def plainHandler (ident : Nat) : Handler Unit where
  ident
  isAsync := false
  stage x := (.ok {}, x)

def plainMiddleware (ident : Nat) : Middleware Unit where
  ident
  name := ascii "plain"
  factory := some (return some { init := return id })

def contested : List (Call Unit) :=
  [.path 0 (ascii "/a"), .path 1 (ascii "/<x>"), .path 2 (ascii "/<x>"),
    .handle 1 .get (some (plainHandler 0)), .handle 2 .get (some (plainHandler 1)),
    .nest 0 [some 1, some 2, none], .handle 1 .put (some (plainHandler 2)),
    .middlewares 2 [plainMiddleware 0], .middlewares 0 [plainMiddleware 1, plainMiddleware 2],
    .middlewares 2 [plainMiddleware 3], .middlewares 0 [plainMiddleware 4]]

theorem routes_reflect_lines_contested :
    ∃ r children, (Forest.nil.after contested).tree? 0 = some (r, children) ∧
      r.routes.keys = [ascii "/<x>"] ∧
      (r.routes.find? (ascii "/<x>")).map (fun e => (e.origin, e.middlewares.map (·.ident))) =
        some (2, [1, 2, 4, 0, 3]) ∧
      (∀ k, k ∈ r.routes.keys ↔ ∃ line ∈ children.lines, spell line = k) ∧
      (∀ k e, r.routes.find? k = some e →
        ∃ line ∈ children.lines, spell line = k ∧ e = Entry.along (r :: line)) ∧
      ((children.lines.map spell).Nodup → r.routes = r.bare.table children.lines) ∧
      ∀ line ∈ children.lines, ∀ n ∈ r.bare :: line, Forest.DeclaredBy contested n := by
  have reached : Forest.Reached contested (Forest.nil.after contested) :=
    Forest.Reached.start.after (by decide +kernel)
  have shown : ((Forest.nil.after contested).tree? 0).map (fun tree =>
      (tree.1.routes.keys, (tree.1.routes.find? (ascii "/<x>")).map fun e =>
        (e.origin, e.middlewares.map (·.ident)))) =
      some ([ascii "/<x>"], some (2, [1, 2, 4, 0, 3])) := by decide +kernel
  obtain ⟨⟨r, children⟩, found, shown⟩ := Option.map_eq_some_iff.mp shown
  obtain ⟨keys, entry⟩ := Prod.mk.inj shown
  exact ⟨r, children, found, keys, entry, routes_reflect_lines reached found⟩

end HttpRouting
