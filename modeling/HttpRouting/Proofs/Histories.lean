import HttpRouting.Proofs.Routers

namespace HttpRouting

open Router

variable {σ : Type}

namespace Forest

theorem find?_withHandler (handlers : Dictionary Method (Handler σ)) (m m' : Method)
    (h : Handler σ) :
    (withHandler handlers m h).find? m' =
      if m' = m then some h
      else if m = .all ∨ m' = .all then none
      else handlers.find? m' := by
  rw [withHandler, Dictionary.find?_insert]
  by_cases same : m' = m
  · simp [same]
  · by_cases all : m = .all
    · simp [all]
    · simp [same, all]

def handlersAfter (accepted : List (Method × Handler σ)) : Dictionary Method (Handler σ) :=
  accepted.foldl (fun handlers e => withHandler handlers e.1 e.2) ∅

theorem handlersAfter_append (accepted : List (Method × Handler σ)) (m : Method) (h : Handler σ) :
    handlersAfter (accepted ++ [(m, h)]) = withHandler (handlersAfter accepted) m h := by
  rw [handlersAfter, List.foldl_append]
  rfl

theorem Puts.declare {g : Router σ → Router σ} {more : Forest σ}
    {change : Router σ → Forest σ → Noted (Router σ × Forest σ)} (puts : Puts g more change)
    {f : Forest σ} (distinct : f.idents.Nodup) {id : Nat} (inside : id ∈ f.idents) :
    (f.declare id change).forest.rows.Perm (f.rows.map (enter id g more.tops) ++ more.rows) := by
  obtain ⟨revision, revised, declared⟩ := declare_of_mem_idents change inside
  rw [declared]
  exact (puts.revise distinct revised).2

theorem rows_attach {f : Forest σ} (distinct : f.idents.Nodup) {r child : Router σ}
    {below : Forest σ} (top : f.parent? child.ident = none)
    (found : f.tree? child.ident = some (child, below))
    (remains : r.ident ∈ (f.removeRoot child.ident).idents) :
    (f.attach r child below).forest.rows.Perm
      (f.rows.map (enter r.ident (fun r => r) [child.ident])) := by
  have puts : Puts (fun r => r) (cons child below nil) fun r children => do
      Noted.note .debug (ascii "[Router] Nested '" ++ child.path ++ ascii "' into '" ++ r.path ++
        ascii "'")
      return (← r.absorb child, children.append (cons child below nil)) :=
    ⟨fun _ => rfl, fun r _ => bare_absorb r child, fun _ children => tops_append children _,
      fun _ children => rows_append children _⟩
  have attached : (f.attach r child below).forest.rows.Perm _ :=
    puts.declare (nodup_removeRoot distinct top found) remains
  have outside : r.ident ∉ (cons child below nil).idents := fun inside =>
    (List.nodup_append.mp ((idents_removeRoot top found).nodup_iff.mp distinct)).2.2
      r.ident inside r.ident remains rfl
  refine attached.trans (.trans ?_ ((rows_removeRoot top found).map _).symm)
  rw [List.map_append, map_enter_of_not_mem _ _ outside]
  exact List.perm_append_comm

theorem routers_attach {f : Forest σ} (distinct : f.idents.Nodup) {r child : Router σ}
    {below : Forest σ} (top : f.parent? child.ident = none)
    (found : f.tree? child.ident = some (child, below))
    (remains : r.ident ∈ (f.removeRoot child.ident).idents) :
    (f.attach r child below).forest.routers.Perm f.routers := by
  have attached := (rows_attach distinct top found remains).map (·.1)
  rw [map_rows, List.map_map] at attached
  refine attached.trans (.of_eq ?_)
  rw [← map_rows]
  refine List.map_congr_left fun row _ => ?_
  change (enter r.ident (fun r => r) [child.ident] row).1 = row.1
  rw [enter]
  split <;> rfl

theorem routers_nestOne {f : Forest σ} (distinct : f.idents.Nodup) {r : Router σ}
    (inside : r.ident ∈ f.idents) {child : Option Nat} {d : Declared σ}
    (h : f.nestOne r child = .ok d) : d.forest.routers.Perm f.routers := by
  obtain ⟨child, below, rfl, found, other, acyclic, top, rfl⟩ := nestOne_eq_ok h
  exact routers_attach distinct top found (mem_idents_removeRoot top found inside other acyclic)

theorem routers_nest {f : Forest σ} (distinct : f.idents.Nodup) (id : Nat)
    (children : List (Option Nat)) : (f.nest id children).forest.routers.Perm f.routers := by
  induction children generalizing f with
  | nil => exact .refl _
  | cons child rest ih =>
    rw [nest]
    split
    · exact .refl _
    · rename_i r found
      split
      · exact .refl _
      · rename_i one nested
        obtain ⟨⟨_, below⟩, tree, rfl⟩ := Option.map_eq_some_iff.mp found
        have inside := List.mem_map_of_mem (f := (·.ident)) (bare_mem_routers tree)
        have moved := routers_nestOne distinct inside nested
        exact (ih ((moved.map _).nodup_iff.mpr distinct)).trans moved

end Forest

namespace Call

def redeclare : Call σ → Router σ → Router σ
  | middlewares id added =>
    Router.redeclare id fun r => { r with middlewares := r.middlewares ++ added }
  | handle id m (some h) =>
    if m = .unknown then fun r => r
    else Router.redeclare id fun r => { r with handlers := Forest.withHandler r.handlers m h }
  | _ => fun r => r

def made : Call σ → List (Router σ)
  | path ident source =>
    match Template.parse source with
    | .error _ => []
    | .ok template => [{ ident, template }]
  | _ => []

theorem mem_made {c : Call σ} {r : Router σ} (hr : r ∈ c.made) :
    ∃ source, c = path r.ident source ∧ Template.parse source = .ok r.template ∧
      r = { ident := r.ident, template := r.template } := by
  cases c with
  | path ident source =>
    rw [made] at hr
    split at hr
    · cases hr
    · rename_i parsed
      cases List.mem_singleton.mp hr
      exact ⟨source, rfl, parsed, rfl⟩
  | nest | middlewares | handle | compose => cases hr

theorem redeclare_fields (c : Call σ) (r : Router σ) :
    (c.redeclare r).ident = r.ident ∧ (c.redeclare r).template = r.template ∧
      (c.redeclare r).middlewares = r.middlewares ++ c.added r.ident := by
  cases c with
  | middlewares id added =>
    rw [redeclare, Router.redeclare, Call.added]
    by_cases here : r.ident = id
    · rw [if_pos here, if_pos here.symm]
      exact ⟨rfl, rfl, rfl⟩
    · rw [if_neg here, if_neg (Ne.symm here), List.append_nil]
      exact ⟨rfl, rfl, rfl⟩
  | handle id m h =>
    have none : r.middlewares = r.middlewares ++ (handle id m h).added r.ident :=
      (List.append_nil _).symm
    cases h with
    | none => exact ⟨rfl, rfl, none⟩
    | some h =>
      rw [redeclare]
      split
      · exact ⟨rfl, rfl, none⟩
      · rw [Router.redeclare]
        split <;> exact ⟨rfl, rfl, none⟩
  | path | nest | compose => exact ⟨rfl, rfl, (List.append_nil _).symm⟩

def accepted (id : Nat) : Call σ → List (Method × Handler σ)
  | handle id' m (some h) => if id' = id ∧ m ≠ .unknown then [(m, h)] else []
  | _ => []

theorem handlers_redeclare (c : Call σ) (r : Router σ) :
    (c.redeclare r).handlers = (c.accepted r.ident).foldl
      (fun handlers e => Forest.withHandler handlers e.1 e.2) r.handlers := by
  cases c with
  | path | nest | compose => rfl
  | middlewares id added =>
    rw [redeclare, Router.redeclare]
    split <;> rfl
  | handle id m h =>
    cases h with
    | none => rfl
    | some h =>
      rw [redeclare, accepted]
      by_cases unknown : m = .unknown
      · simp [unknown]
      · by_cases here : r.ident = id
        · simp [unknown, here, Router.redeclare]
        · simp [unknown, here, Router.redeclare, Ne.symm here]

theorem find?_withHandler {handlers : Dictionary Method (Handler σ)} {m m' : Method}
    {h h' : Handler σ} (found : (Forest.withHandler handlers m h).find? m' = some h') :
    (m' = m ∧ h' = h) ∨ handlers.find? m' = some h' := by
  rw [Forest.find?_withHandler] at found
  split at found
  · rename_i same
    exact .inl ⟨same, (Option.some.inj found).symm⟩
  · split at found
    · cases found
    · exact .inr found

theorem find?_handlers_redeclare {c : Call σ} {r : Router σ} {m : Method} {h : Handler σ}
    (found : (c.redeclare r).handlers.find? m = some h) :
    r.handlers.find? m = some h ∨ c = handle r.ident m (some h) := by
  cases c with
  | path | nest | compose => exact .inl found
  | middlewares id added =>
    rw [redeclare, Router.redeclare] at found
    split at found <;> exact .inl found
  | handle id m' h' =>
    cases h' with
    | none => exact .inl found
    | some h' =>
      rw [redeclare] at found
      split at found
      · exact .inl found
      · rw [Router.redeclare] at found
        split at found
        · rename_i here
          rcases find?_withHandler found with ⟨rfl, rfl⟩ | old
          · exact .inr (by rw [here])
          · exact .inl old
        · exact .inl found

end Call

namespace Forest

theorem Puts.declare_nil {g : Router σ → Router σ}
    {change : Router σ → Forest σ → Noted (Router σ × Forest σ)} (puts : Puts g nil change)
    {f : Forest σ} (distinct : f.idents.Nodup) {id : Nat} (inside : id ∈ f.idents) :
    (f.declare id change).forest.rows.Perm
      (f.rows.map fun row => (Router.redeclare id g row.1, row.2)) := by
  have declared : (f.declare id change).forest.rows.Perm _ := puts.declare distinct inside
  rw [show (nil : Forest σ).tops = [] from rfl, Forest.rows, List.append_nil] at declared
  rwa [List.map_congr_left fun row _ => enter_nil id g row] at declared

theorem puts_middlewares (added : List (Middleware σ)) :
    Puts (fun r => { r with middlewares := r.middlewares ++ added }) nil
      (fun r children => do
        let r := { r with middlewares := r.middlewares ++ added }
        return (← children.roots.foldlM Router.absorb r, children)) where
  ident _ := rfl
  bare _ _ := bare_absorbAll _ _
  tops _ _ := (List.append_nil _).symm
  rows _ _ := (List.append_nil _).symm

theorem puts_handler (m : Method) (h : Handler σ) :
    Puts (fun r => { r with handlers := withHandler r.handlers m h }) nil
      (fun r children =>
        return ({ r with handlers := withHandler r.handlers m h }, children)) where
  ident _ := rfl
  bare _ _ := rfl
  tops _ _ := (List.append_nil _).symm
  rows _ _ := (List.append_nil _).symm

theorem puts_rebuild :
    Puts (fun r => r) nil (fun (r : Router σ) children => do
      let children ← children.rebuild
      return (← children.roots.foldlM Router.absorb r, children)) where
  ident _ := rfl
  bare r _ := bare_absorbAll r _
  tops _ children := (tops_rebuild children).trans (List.append_nil _).symm
  rows _ children := (rows_rebuild children).trans (List.append_nil _).symm

theorem rows_handle {f : Forest σ} (distinct : f.idents.Nodup) {id : Nat}
    (inside : id ∈ f.idents) (m : Method) (h : Option (Handler σ)) :
    (f.handle id m h).forest.rows.Perm
      (f.rows.map fun row => ((Call.handle id m h).redeclare row.1, row.2)) := by
  have same : f.rows.map (fun row => (row.1, row.2)) = f.rows := List.map_id' _
  obtain ⟨r, found⟩ : ∃ r, f.find? id = some r := by
    rw [← Option.isSome_iff_exists, find?, Option.isSome_map]
    exact contains_iff.mpr inside
  unfold handle
  rw [found]
  cases h with
  | none => exact .of_eq same.symm
  | some h =>
    rw [Call.redeclare]
    by_cases unknown : m = .unknown
    · simp only [if_pos unknown]
      exact .of_eq same.symm
    · simp only [if_neg unknown]
      exact (puts_handler m h).declare_nil distinct inside

theorem rows_apply {f : Forest σ} (distinct : f.idents.Nodup) {c : Call σ}
    (possible : c.Possible f) (other : ∀ id children, c ≠ .nest id children) :
    (c.apply f).forest.rows.Perm
      (f.rows.map (fun row => (c.redeclare row.1, row.2)) ++ c.made.map (·, [])) := by
  have same : f.rows.map (fun row => (row.1, row.2)) ++ [] = f.rows := by
    rw [List.append_nil]
    exact List.map_id' _
  cases c with
  | path ident source =>
    rw [Call.apply, Call.made]
    cases Template.parse source with
    | error e => exact .of_eq same.symm
    | ok template =>
      exact .of_eq ((rows_append _ _).trans (congrArg (· ++ _) (List.map_id' _).symm))
  | nest id children => exact absurd rfl (other id children)
  | middlewares id added =>
    refine .trans ?_ (.of_eq (List.append_nil _).symm)
    exact (puts_middlewares added).declare_nil distinct (contains_iff.mp possible)
  | handle id m h =>
    refine .trans ?_ (.of_eq (List.append_nil _).symm)
    exact rows_handle distinct (contains_iff.mp possible) m h
  | compose id =>
    refine .trans ?_ (.of_eq same.symm)
    refine (puts_rebuild.declare_nil distinct (contains_iff.mp possible)).trans (.of_eq ?_)
    refine (List.map_congr_left fun row _ => ?_).trans (List.map_id' _)
    rw [Router.redeclare, ite_self]

theorem routers_apply {f : Forest σ} (distinct : f.idents.Nodup) {c : Call σ}
    (possible : c.Possible f) :
    (c.apply f).forest.routers.Perm (f.routers.map c.redeclare ++ c.made) := by
  by_cases nests : ∃ id children, c = .nest id children
  · obtain ⟨id, children, rfl⟩ := nests
    refine (routers_nest distinct id children).trans (.of_eq ?_)
    exact ((List.append_nil _).trans (List.map_id' _)).symm
  · have applied := (rows_apply distinct possible fun id children same =>
      nests ⟨id, children, same⟩).map (·.1)
    rw [map_rows, List.map_append, List.map_map, List.map_map] at applied
    refine applied.trans (.of_eq ?_)
    rw [← map_rows, List.map_map]
    exact congrArg _ (List.map_id' _)

theorem idents_apply {f : Forest σ} (distinct : f.idents.Nodup) {c : Call σ}
    (possible : c.Possible f) :
    (c.apply f).forest.idents.Perm (f.idents ++ c.made.map (·.ident)) := by
  have kept : f.routers.map (fun r => (c.redeclare r).ident) = f.idents :=
    List.map_congr_left fun r _ => (c.redeclare_fields r).1
  have applied := (routers_apply distinct possible).map (·.ident)
  rw [List.map_append, List.map_map] at applied
  exact applied.trans (.of_eq (congrArg (· ++ _) kept))

theorem distinct_apply {f : Forest σ} (distinct : f.idents.Nodup) {c : Call σ}
    (possible : c.Possible f) : (c.apply f).forest.idents.Nodup := by
  rw [(idents_apply distinct possible).nodup_iff]
  cases c with
  | path ident source =>
    rw [Call.made]
    cases Template.parse source with
    | error e => rwa [List.map_nil, List.append_nil]
    | ok template =>
      have fresh : ident ∉ f.idents := by
        rw [← contains_iff, Bool.not_eq_true]
        exact possible
      rw [List.nodup_append]
      refine ⟨distinct, List.nodup_cons.mpr ⟨List.not_mem_nil, .nil⟩, ?_⟩
      rintro _ old _ new rfl
      cases List.mem_singleton.mp new
      exact fresh old
  | nest | middlewares | handle | compose =>
    change (f.idents ++ []).Nodup
    rwa [List.append_nil]

theorem mem_routers_apply {f : Forest σ} (distinct : f.idents.Nodup) {c : Call σ}
    (possible : c.Possible f) {r : Router σ} (hr : r ∈ (c.apply f).forest.routers) :
    (∃ old ∈ f.routers, c.redeclare old = r) ∨ r ∈ c.made := by
  rw [(routers_apply distinct possible).mem_iff, List.mem_append] at hr
  exact hr.imp_left List.mem_map.mp

variable {calls : List (Call σ)} {f : Forest σ}

theorem Reached.distinct (h : Reached calls f) : f.idents.Nodup := by
  induction h with
  | start => exact .nil
  | call c _ possible ih => exact distinct_apply ih possible

theorem Reached.flatMap_eq_nil {α : Type} {id : Nat} {g : Call σ → List α}
    (there : ∀ f c, Call.Possible f c → id ∉ f.idents → g c = []) (h : Reached calls f)
    (absent : id ∉ f.idents) : calls.flatMap g = [] := by
  induction h with
  | start => rfl
  | @call calls f c h possible ih =>
    rw [(idents_apply h.distinct possible).mem_iff, List.mem_append, not_or] at absent
    rw [List.flatMap_append, ih absent.1, List.flatMap_singleton, List.nil_append]
    exact there f c possible absent.1

theorem Reached.added_eq_nil (h : Reached calls f) {id : Nat} (absent : id ∉ f.idents) :
    calls.flatMap (Call.added id) = [] := by
  refine h.flatMap_eq_nil (fun f c possible absent => ?_) absent
  cases c with
  | middlewares id' added =>
    refine if_neg fun same => absent ?_
    rw [← same, ← contains_iff]
    exact possible
  | path | nest | handle | compose => rfl

theorem Reached.middlewares (h : Reached calls f) :
    ∀ r ∈ f.routers, r.middlewares = calls.flatMap (Call.added r.ident) := by
  induction h with
  | start => exact fun r hr => absurd hr List.not_mem_nil
  | @call calls f c h possible ih =>
    intro r hr
    rw [List.flatMap_append, List.flatMap_singleton]
    rcases mem_routers_apply h.distinct possible hr with ⟨old, hold, rfl⟩ | new
    · obtain ⟨ident, -, middlewares⟩ := c.redeclare_fields old
      rw [middlewares, ident, ih old hold]
    · obtain ⟨source, rfl, -, bare⟩ := Call.mem_made new
      have fresh : r.ident ∉ f.idents := by
        rw [← contains_iff, Bool.not_eq_true]
        exact possible
      rw [h.added_eq_nil fresh, bare]
      rfl

theorem Reached.accepted_eq_nil (h : Reached calls f) {id : Nat} (absent : id ∉ f.idents) :
    calls.flatMap (Call.accepted id) = [] := by
  refine h.flatMap_eq_nil (fun f c possible absent => ?_) absent
  cases c with
  | path | nest | middlewares | compose => rfl
  | handle id' m h =>
    cases h with
    | none => rfl
    | some h =>
      refine if_neg fun accepts => absent ?_
      rw [← accepts.1, ← contains_iff]
      exact possible

theorem Reached.handlers_eq (h : Reached calls f) :
    ∀ r ∈ f.routers, r.handlers = handlersAfter (calls.flatMap (Call.accepted r.ident)) := by
  induction h with
  | start => exact fun r hr => absurd hr List.not_mem_nil
  | @call calls f c h possible ih =>
    intro r hr
    rw [List.flatMap_append, List.flatMap_singleton, handlersAfter, List.foldl_append]
    rcases mem_routers_apply h.distinct possible hr with ⟨old, hold, rfl⟩ | new
    · rw [c.handlers_redeclare, (c.redeclare_fields old).1, ih old hold]
      rfl
    · obtain ⟨source, rfl, -, bare⟩ := Call.mem_made new
      have fresh : r.ident ∉ f.idents := by
        rw [← contains_iff, Bool.not_eq_true]
        exact possible
      rw [h.accepted_eq_nil fresh, bare]
      rfl

theorem Reached.handlers (h : Reached calls f) :
    ∀ r ∈ f.routers, ∀ m handler, r.handlers.find? m = some handler →
      Call.handle r.ident m (some handler) ∈ calls := by
  induction h with
  | start => exact fun r hr => absurd hr List.not_mem_nil
  | @call calls f c h possible ih =>
    intro r hr m handler found
    rw [List.mem_append, List.mem_singleton]
    rcases mem_routers_apply h.distinct possible hr with ⟨old, hold, rfl⟩ | new
    · rw [(c.redeclare_fields old).1]
      rcases Call.find?_handlers_redeclare found with kept | given
      · exact .inl (ih old hold m handler kept)
      · exact .inr given.symm
    · obtain ⟨source, -, -, bare⟩ := Call.mem_made new
      rw [bare] at found
      cases found

/-- A router is as the calls have declared it: it has the template it was made with, the middlewares
that the calls give it, in their order, and the handlers that the accepted calls leave. -/
structure DeclaredBy (calls : List (Call σ)) (r : Router σ) : Prop where
  template : ∃ source, Call.path r.ident source ∈ calls ∧ Template.parse source = .ok r.template
  middlewares : r.middlewares = calls.flatMap (Call.added r.ident)
  handlers : r.handlers = handlersAfter (calls.flatMap (Call.accepted r.ident))

theorem Reached.made (h : Reached calls f) :
    ∀ r ∈ f.routers, ∃ source,
      Call.path r.ident source ∈ calls ∧ Template.parse source = .ok r.template := by
  induction h with
  | start => exact fun r hr => absurd hr List.not_mem_nil
  | @call calls f c h possible ih =>
    intro r hr
    rcases mem_routers_apply h.distinct possible hr with ⟨old, hold, rfl⟩ | new
    · obtain ⟨ident, template, -⟩ := c.redeclare_fields old
      obtain ⟨source, made, parsed⟩ := ih old hold
      rw [ident, template]
      exact ⟨source, List.mem_append_left _ made, parsed⟩
    · obtain ⟨source, rfl, parsed, -⟩ := Call.mem_made new
      exact ⟨source, List.mem_append_right _ List.mem_cons_self, parsed⟩

theorem Reached.declaredBy (h : Reached calls f) : ∀ r ∈ f.routers, DeclaredBy calls r :=
  fun r hr => ⟨h.made r hr, h.middlewares r hr, h.handlers_eq r hr⟩

theorem Reached.parsed (h : Reached calls f) :
    ∀ r ∈ f.routers, ∃ source, Template.parse source = .ok r.template := by
  intro r hr
  obtain ⟨source, -, parsed⟩ := h.made r hr
  exact ⟨source, parsed⟩

end Forest

theorem mem_routers_below {f : Forest σ} {id : Nat} {r : Router σ} {children : Forest σ}
    (found : f.tree? id = some (r, children)) {line : List (Router σ)}
    (hl : line ∈ children.lines) : ∀ n ∈ line, n ∈ f.routers := by
  intro n hn
  apply (Forest.routers_of_tree found).2.subset
  rw [Forest.routers, List.mem_cons, List.mem_append]
  exact .inr (.inl (Forest.mem_routers_of_line hl n hn))

theorem parsed_of_line {calls : List (Call σ)} {f : Forest σ} (hf : f.Reached calls) {id : Nat}
    {r : Router σ} {children : Forest σ} (found : f.tree? id = some (r, children))
    {line : List (Router σ)} (hl : line ∈ children.lines) :
    ∀ n ∈ line, ∃ source, Template.parse source = .ok n.template :=
  fun n hn => hf.parsed n (mem_routers_below found hl n hn)

end HttpRouting
