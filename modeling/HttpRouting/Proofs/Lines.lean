import HttpRouting.Dictionary.Latest
import HttpRouting.Router.History

/-!
The lines of a forest: the ways from a root down to a router with handlers. What is served at the
end of a line follows from what the routers along it declare, whatever their tables hold.
-/

namespace HttpRouting

variable {σ : Type}

def Router.bare (r : Router σ) : Router σ := { r with routes := ∅ }

@[simp] theorem Router.bare_ident (r : Router σ) : r.bare.ident = r.ident := rfl

@[simp] theorem Router.bare_template (r : Router σ) : r.bare.template = r.template := rfl

@[simp] theorem Router.bare_handlers (r : Router σ) : r.bare.handlers = r.handlers := rfl

theorem Router.eq_of_bare {r r' : Router σ} (same : r.bare = r'.bare)
    (routes : r.routes = r'.routes) : r = r' :=
  calc
    r = { r.bare with routes := r.routes } := rfl
    _ = { r'.bare with routes := r'.routes } := by rw [same, routes]

namespace Forest

def lines : Forest σ → List (List (Router σ))
  | nil => []
  | cons r children siblings =>
    (if r.handlers.isEmpty then [] else [[r.bare]]) ++ children.lines.map (r.bare :: ·) ++
      siblings.lines

theorem mem_lines_cons {r : Router σ} {children siblings : Forest σ} {line : List (Router σ)} :
    line ∈ (cons r children siblings).lines ↔
      (r.handlers.isEmpty = false ∧ line = [r.bare]) ∨
        (∃ rest ∈ children.lines, line = r.bare :: rest) ∨ line ∈ siblings.lines := by
  rw [lines, List.mem_append, List.mem_append, List.mem_map, or_assoc]
  cases r.handlers.isEmpty <;> simp [eq_comm]

theorem ne_nil_of_mem_lines {f : Forest σ} {line : List (Router σ)} (h : line ∈ f.lines) :
    line ≠ [] := by
  induction f with
  | nil => cases h
  | cons r children siblings _ ih =>
    rcases mem_lines_cons.mp h with ⟨-, rfl⟩ | ⟨rest, -, rfl⟩ | h
    · exact List.cons_ne_nil _ _
    · exact List.cons_ne_nil _ _
    · exact ih h

theorem lines_append (f g : Forest σ) : (f.append g).lines = f.lines ++ g.lines := by
  induction f with
  | nil => rfl
  | cons r children siblings _ ih => simp only [append, lines, ih, List.append_assoc]

theorem lines_cons_split (r : Router σ) (children siblings : Forest σ) :
    (cons r children siblings).lines = (cons r children nil).lines ++ siblings.lines := by
  simp only [lines, List.append_nil]

theorem lines_congr {r r' : Router σ} (same : r.bare = r'.bare) (children siblings : Forest σ) :
    (cons r children siblings).lines = (cons r' children siblings).lines := by
  have handlers := congrArg Router.handlers same
  simp only [Router.bare_handlers] at handlers
  rw [lines, lines, same, handlers]

end Forest

def spell (line : List (Router σ)) : Bytes := line.flatMap (·.template.urlPath)

@[simp] theorem spell_cons (r : Router σ) (line : List (Router σ)) :
    spell (r :: line) = r.template.urlPath ++ spell line := List.flatMap_cons

@[simp] theorem spell_nil : spell ([] : List (Router σ)) = [] := rfl

def queryAlong (line : List (Router σ)) : Bytes :=
  Bytes.join "&" ((line.map (·.template.queryPath)).filter (· ≠ []))

theorem joinQuery_queryAlong (r : Router σ) (line : List (Router σ)) :
    joinQuery r.template.queryPath (queryAlong line) = queryAlong (r :: line) := by
  have separator : ascii "&" = [Byte.ampersand] := rfl
  simp only [queryAlong, Bytes.join, separator, List.map_cons]
  by_cases own : r.template.queryPath = []
  · simp [joinQuery, own]
  · rw [List.filter_cons_of_pos (by simpa using own), joinQuery, if_neg own]
    cases below : (line.map (·.template.queryPath)).filter (· ≠ []) with
    | nil => simp
    | cons part parts =>
      have part_ne : part ≠ [] := by
        have mem : part ∈ (line.map (·.template.queryPath)).filter (· ≠ []) := by
          rw [below]
          exact List.mem_cons_self
        simpa using (List.mem_filter.mp mem).2
      have rest_ne : [Byte.ampersand].intercalate (part :: parts) ≠ [] := by
        cases parts <;> simp [part_ne]
      rw [if_neg rest_ne, List.intercalate_cons_cons]
      simp

/-- What is served at the end of a line, as seen from its beginning. -/
def Entry.along (line : List (Router σ)) : Entry σ where
  urlPath := spell line
  queryPath := queryAlong line
  middlewares := line.flatMap (·.middlewares)
  pathParams := line.foldr (fun r params => r.template.pathParams.merge params) ∅
  queryParams := line.foldr (fun r params => r.template.queryParams.merge params) ∅
  segments := line.flatMap (·.template.segments)
  handlers := (line.getLast?.map (·.handlers)).getD ∅
  origin := (line.getLast?.map (·.ident)).getD 0

namespace Router

theorem ownEntry_eq_along (r : Router σ) : r.ownEntry = Entry.along [r] := by
  have query : queryAlong [r] = r.template.queryPath := by
    rw [← joinQuery_queryAlong]
    by_cases own : r.template.queryPath = [] <;> simp [joinQuery, own, queryAlong, Bytes.join]
  simp [ownEntry, Entry.along, query]

theorem extend_along (r : Router σ) {line : List (Router σ)} (h : line ≠ []) :
    r.extend (Entry.along line) = Entry.along (r :: line) := by
  obtain ⟨first, rest, rfl⟩ := List.exists_cons_of_ne_nil h
  rw [extend]
  simp only [Entry.along, joinQuery_queryAlong, List.flatMap_cons, List.foldr_cons,
    List.getLast?_cons_cons, spell_cons]

theorem along_bare (r : Router σ) (line : List (Router σ)) :
    Entry.along (r.bare :: line) = Entry.along (r :: line) := by
  cases line <;> rfl

end Router

theorem find?_pathParams_along (line : List (Router σ)) (name : Bytes) :
    (Entry.along line).pathParams.find? name =
      line.reverse.findSome? (fun r => r.template.pathParams.find? name) := by
  induction line with
  | nil => rfl
  | cons r line ih =>
    rw [List.reverse_cons, List.findSome?_append, ← ih]
    simp [Entry.along, Dictionary.find?_merge]

end HttpRouting
