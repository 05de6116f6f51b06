import HttpRouting.Proofs.Lines

namespace HttpRouting

variable {σ : Type}

namespace Router

theorem value_store (r : Router σ) (key : Bytes) (e : Entry σ) :
    (r.store key e).value = { r with routes := r.routes.insert key e } := by
  rw [store]
  split <;> rfl

theorem value_foldl_store (r : Router σ) (offers : List (Bytes × Entry σ)) :
    offers.foldl (fun r offer => (r.store offer.1 (r.extend offer.2)).value) r =
      { r with routes := r.routes.insertAll (offers.map (fun o => (o.1, r.extend o.2))) } := by
  induction offers generalizing r with
  | nil => rfl
  | cons offer offers ih =>
    rw [List.foldl_cons, ih, value_store]
    rfl

theorem value_absorb (r child : Router σ) :
    (r.absorb child).value =
      { r with routes := r.routes.insertAll (child.offers.map fun o => (o.1, r.extend o.2)) } := by
  rw [absorb, Noted.value_foldlM, value_foldl_store]

@[simp] theorem bare_absorb (r child : Router σ) : (r.absorb child).value.bare = r.bare := by
  rw [value_absorb]
  rfl

theorem ident_absorb (r child : Router σ) : (r.absorb child).value.ident = r.ident := by
  rw [← bare_ident, bare_absorb, bare_ident]

theorem template_absorb (r child : Router σ) : (r.absorb child).value.template = r.template := by
  rw [← bare_template, bare_absorb, bare_template]

theorem handlers_absorb (r child : Router σ) : (r.absorb child).value.handlers = r.handlers := by
  rw [← bare_handlers, bare_absorb, bare_handlers]

theorem find?_absorb (r child : Router σ) (k : Bytes) :
    (r.absorb child).value.routes.find? k =
      ((latest k child.offers).map r.extend).or (r.routes.find? k) := by
  rw [value_absorb, Dictionary.find?_insertAll, latest_map_value]

theorem origin_absorb (r child : Router σ) (k : Bytes) :
    ((r.absorb child).value.routes.find? k).map (·.origin) =
      ((latest k child.offers).map (·.origin)).or ((r.routes.find? k).map (·.origin)) := by
  rw [find?_absorb, Option.map_or, Option.map_map]
  rfl

theorem extend_congr {r r' : Router σ} (same : r.bare = r'.bare) (e : Entry σ) :
    r.extend e = r'.extend e := by
  have extended := congrArg (fun r => Router.extend r e) same
  exact extended

end Router

def Forest.offers (f : Forest σ) : List (Bytes × Entry σ) := f.roots.flatMap Router.offers

namespace Router

def absorbAll (r : Router σ) (children : List (Router σ)) : Router σ :=
  (children.foldlM Router.absorb r).value

theorem absorbAll_cons (r child : Router σ) (children : List (Router σ)) :
    r.absorbAll (child :: children) = (r.absorb child).value.absorbAll children := rfl

@[simp] theorem bare_absorbAll (r : Router σ) (children : List (Router σ)) :
    (r.absorbAll children).bare = r.bare := by
  induction children generalizing r with
  | nil => rfl
  | cons child children ih => rw [absorbAll_cons, ih, bare_absorb]

@[simp] theorem template_absorbAll (r : Router σ) (children : List (Router σ)) :
    (r.absorbAll children).template = r.template := by
  rw [← bare_template, bare_absorbAll, bare_template]

@[simp] theorem handlers_absorbAll (r : Router σ) (children : List (Router σ)) :
    (r.absorbAll children).handlers = r.handlers := by
  rw [← bare_handlers, bare_absorbAll, bare_handlers]

theorem find?_absorbAll (r : Router σ) (children : List (Router σ)) (k : Bytes) :
    (r.absorbAll children).routes.find? k =
      ((latest k (children.flatMap Router.offers)).map r.extend).or (r.routes.find? k) := by
  induction children generalizing r with
  | nil => rfl
  | cons child children ih =>
    have above : (r.absorb child).value.extend = r.extend :=
      funext (extend_congr (bare_absorb r child))
    rw [absorbAll_cons, ih, above, find?_absorb, List.flatMap_cons, latest_append, Option.map_or,
      Option.or_assoc]

theorem latest_offers_append (r : Router σ) (k : Bytes) :
    latest (r.template.urlPath ++ k) r.offers =
      (r.routes.find? k).or
        (if r.handlers.isEmpty = false ∧ k = [] then some r.ownEntry else none) := by
  have cancel : Function.Injective (r.template.urlPath ++ ·) := fun _ _ => List.append_cancel_left
  have table := latest_map_key cancel k r.routes.entries
  rw [offers, latest_append, table, Dictionary.latest_entries]
  congr 1
  by_cases served : r.handlers.isEmpty
  · simp [served]
  · simp [served, latest_cons]

theorem prefix_of_mem_offers {r : Router σ} {o : Bytes × Entry σ} (h : o ∈ r.offers) :
    r.template.urlPath <+: o.1 := by
  rw [offers, List.mem_append] at h
  rcases h with h | h
  · split at h
    · cases h
    · cases List.mem_singleton.mp h
      exact List.prefix_rfl
  · obtain ⟨e, -, rfl⟩ := List.mem_map.mp h
    exact List.prefix_append _ _

/-- A table is current for the forest below a router if it has a key for every line below, and at
each key what one of the lines that spell it serves. -/
structure Current (r : Router σ) (children : Forest σ) : Prop where
  covers : ∀ line ∈ children.lines, (r.routes.find? (spell line)).isSome
  fresh : ∀ k e, r.routes.find? k = some e →
    ∃ line ∈ children.lines, spell line = k ∧ e = Entry.along (r :: line)

variable {r r' child : Router σ} {children below : Forest σ}

theorem Current.offers_cover (h : child.Current below) {line : List (Router σ)}
    (hl : line ∈ (Forest.cons child below .nil).lines) :
    (latest (spell line) child.offers).isSome := by
  rcases Forest.mem_lines_cons.mp hl with ⟨served, rfl⟩ | ⟨rest, hr, rfl⟩ | hl
  · rw [spell_cons, spell_nil, bare_template, latest_offers_append, if_pos ⟨served, rfl⟩]
    simp
  · rw [spell_cons, bare_template, latest_offers_append, Option.isSome_or, h.covers rest hr]
    rfl
  · cases hl

theorem Current.offers_fresh (h : child.Current below) {k : Bytes} {e : Entry σ}
    (hk : latest k child.offers = some e) :
    ∃ line ∈ (Forest.cons child below .nil).lines, spell line = k ∧ e = Entry.along line := by
  obtain ⟨k, rfl⟩ := prefix_of_mem_offers (mem_of_latest hk)
  rw [latest_offers_append, Option.or_eq_some_iff] at hk
  rcases hk with hk | ⟨-, hk⟩
  · obtain ⟨line, hl, rfl, rfl⟩ := h.fresh k e hk
    refine ⟨child.bare :: line, ?_, rfl, (along_bare child line).symm⟩
    exact Forest.mem_lines_cons.mpr (.inr (.inl ⟨line, hl, rfl⟩))
  · split at hk
    · rename_i served
      obtain ⟨served, rfl⟩ := served
      cases hk
      refine ⟨[child.bare], Forest.mem_lines_cons.mpr (.inl ⟨served, rfl⟩), ?_, ?_⟩
      · rw [spell_cons, spell_nil, bare_template]
      · rw [along_bare, ownEntry_eq_along]
    · cases hk

theorem Current.congr (h : r.Current children) (routes : r'.routes = r.routes)
    (template : r'.template = r.template) (middlewares : r'.middlewares = r.middlewares) :
    r'.Current children := by
  refine ⟨fun line hl => routes ▸ h.covers line hl, fun k e hk => ?_⟩
  obtain ⟨line, hl, spelled, rfl⟩ := h.fresh k e (routes ▸ hk)
  refine ⟨line, hl, spelled, ?_⟩
  obtain ⟨first, rest, rfl⟩ := List.exists_cons_of_ne_nil (Forest.ne_nil_of_mem_lines hl)
  simp [Entry.along, queryAlong, template, middlewares]

end Router

end HttpRouting
