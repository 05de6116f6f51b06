import HttpRouting.Proofs.Recomposition

namespace HttpRouting

open Router

variable {σ : Type}

namespace Dictionary

variable {κ α β γ : Type} [Ord κ]

theorem lookup_map (f : α → β) (k : κ) (entries : List (κ × α)) :
    lookup k (entries.map fun e => (e.1, f e.2)) = (lookup k entries).map f := by
  induction entries with
  | nil => rfl
  | cons e entries ih =>
    rw [List.map_cons, lookup, lookup, ih]
    split <;> rfl

theorem find?_map (f : α → β) (d : Dictionary κ α) (k : κ) :
    (d.map f).find? k = (d.find? k).map f :=
  lookup_map f k d.entries

theorem keys_map (f : α → β) (d : Dictionary κ α) : (d.map f).keys = d.keys := by
  rw [keys, map, List.map_map, keys]
  rfl

end Dictionary

def Entry.relabel (ρ : Nat → Nat) (e : Entry σ) : Entry σ := { e with origin := ρ e.origin }

def Router.relabel (ρ : Nat → Nat) (r : Router σ) : Router σ :=
  { r with ident := ρ r.ident, routes := r.routes.map (Entry.relabel ρ) }

namespace Router

theorem offers_relabel (ρ : Nat → Nat) (r : Router σ) :
    (r.relabel ρ).offers = r.offers.map fun o => (o.1, o.2.relabel ρ) := by
  have table : (r.relabel ρ).routes.entries = r.routes.entries.map fun e => (e.1, e.2.relabel ρ) :=
    rfl
  have own : (r.relabel ρ).ownEntry = r.ownEntry.relabel ρ := rfl
  rw [offers, offers, table, own, List.map_append, List.map_map, List.map_map]
  congr 1
  change (if r.handlers.isEmpty then _ else _) = _
  split <;> rfl

theorem relabel_absorbAll (ρ : Nat → Nat) (r : Router σ) (children : List (Router σ)) :
    (r.relabel ρ).absorbAll (children.map (relabel ρ)) = (r.absorbAll children).relabel ρ := by
  have bare : ((r.absorbAll children).relabel ρ).bare = (r.absorbAll children).bare.relabel ρ := rfl
  refine eq_of_bare ?_ (Dictionary.ext_find? fun k => ?_)
  · rw [bare_absorbAll, bare, bare_absorbAll]
    rfl
  · have offers : (children.map (relabel ρ)).flatMap Router.offers =
        (children.flatMap Router.offers).map fun o => (o.1, o.2.relabel ρ) := by
      rw [List.flatMap_map, List.map_flatMap, funext (offers_relabel ρ)]
    have routes : ((r.absorbAll children).relabel ρ).routes =
        (r.absorbAll children).routes.map (Entry.relabel ρ) := rfl
    have table : (r.relabel ρ).routes = r.routes.map (Entry.relabel ρ) := rfl
    rw [find?_absorbAll, offers, latest_map_value, routes, Dictionary.find?_map, find?_absorbAll,
      table, Dictionary.find?_map, Option.map_or, Option.map_map, Option.map_map]
    rfl

end Router

namespace Forest

def relabel (ρ : Nat → Nat) : Forest σ → Forest σ
  | nil => nil
  | cons r children siblings =>
    cons (r.relabel ρ) (children.relabel ρ) (siblings.relabel ρ)

theorem roots_relabel (ρ : Nat → Nat) (f : Forest σ) :
    (f.relabel ρ).roots = f.roots.map (Router.relabel ρ) := by
  induction f with
  | nil => rfl
  | cons r children siblings _ ih => rw [relabel, roots, ih, roots, List.map_cons]

theorem rebuild_relabel (ρ : Nat → Nat) (f : Forest σ) :
    (f.relabel ρ).rebuild.value = f.rebuild.value.relabel ρ := by
  induction f with
  | nil => rfl
  | cons r children siblings ihc ihs =>
    rw [relabel, value_rebuild_cons, value_rebuild_cons, ihc, ihs, roots_relabel, relabel_absorbAll,
      relabel]

theorem relabel_id (f : Forest σ) : f.bare.relabel (fun id => id) = f.bare := by
  induction f with
  | nil => rfl
  | cons r children siblings ihc ihs =>
    rw [bare, relabel, ihc, ihs]
    rfl

theorem rebuild_bare {f : Forest σ} (h : f.Current) : f.bare.rebuild.value = f.rebuild.value := by
  induction f with
  | nil => rfl
  | cons r children siblings ihc ihs =>
    obtain ⟨top, under, beside⟩ := h
    rw [bare, value_rebuild_cons, value_rebuild_cons, ihc under, ihs beside, cons.injEq]
    refine ⟨eq_of_bare ?_ (Dictionary.ext_find? fun k => ?_), rfl, rfl⟩
    · rw [bare_absorbAll, bare_absorbAll]
      rfl
    · rw [find?_absorbAll, find?_absorbAll]
      cases stored : r.routes.find? k with
      | none => rfl
      | some e =>
        -- A line below spells the key, so what was stored there before is replaced.
        obtain ⟨line, hl, rfl, -⟩ := top.fresh k e stored
        have offered := (current_rebuild under).offers_cover (lines_rebuild children ▸ hl)
        obtain ⟨e', offered⟩ := Option.isSome_iff_exists.mp offered
        rw [← Forest.offers, offered, Option.map_some, Option.some_or, Option.map_some,
          Option.some_or]
        rfl

theorem rebuild_of_same {f g : Forest σ} (hf : f.Current) (hg : g.Current) {ρ : Nat → Nat}
    (same : g.bare = f.bare.relabel ρ) : g.rebuild.value = f.rebuild.value.relabel ρ := by
  rw [← rebuild_bare hg, same, rebuild_relabel, rebuild_bare hf]

end Forest

end HttpRouting
