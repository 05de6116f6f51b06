import HttpRouting.Template.Parser

namespace HttpRouting.Template

open Byte Bytes

def Url.unread (u : Url) : Nat := (u.query.map (·.length + 1)).getD 0

theorem Url.unread_flush {u : Url} (fresh : u.query = none) (literal : Bytes) :
    (u.flush literal).unread = 0 := by
  rw [flush]
  split <;> simp [unread, fresh]

theorem Url.query_flush (u : Url) (literal : Bytes) : (u.flush literal).query = u.query := by
  rw [flush]
  split <;> rfl

theorem unread_url {u u' : Url} {literal s : Bytes} (h : url u literal s = .ok u')
    (fresh : u.query = none) :
    u'.unread ≤ s.length ∧ (u'.unread = s.length → u'.segments = (u.flush literal).segments) := by
  fun_induction url u literal s with
  | case1 u literal =>
    cases h
    rw [Url.unread_flush fresh]
    exact ⟨Nat.le_refl 0, fun _ => rfl⟩
  | case2 => cases h
  | case3 => cases h
  | case4 => cases h
  | case5 => cases h
  | case6 u literal rest _ d tail _ _ _ shorter ih =>
    have read := (ih h fresh).1
    constructor <;> omega
  | case7 u literal b rest _ _ ih =>
    have read := (ih h fresh).1
    rw [List.length_tail] at read
    rw [List.length_cons]
    constructor <;> omega
  | case8 u literal rest =>
    cases h
    exact ⟨Nat.le_refl _, fun _ => rfl⟩
  | case9 u literal rest _ _ _ ih =>
    have read := (ih h (u.query_flush literal ▸ fresh)).1
    rw [List.length_cons]
    constructor <;> omega
  | case10 u literal b rest _ _ _ _ ih =>
    have read := (ih h fresh).1
    rw [List.length_cons]
    constructor <;> omega

theorem segments_of_urlPath_eq_nil {source : Bytes} {t : Template} (h : parse source = .ok t)
    (empty : t.urlPath = []) : t.segments = [] := by
  rw [parse] at h
  cases scanned : scan source with
  | error e =>
    rw [scanned] at h
    cases h
  | ok t' =>
    rw [scanned] at h
    cases h
    obtain ⟨u, read, rest⟩ := Scan.bind_eq_ok.mp scanned
    obtain ⟨queryParams, -, rest⟩ := Scan.bind_eq_ok.mp rest
    cases rest
    obtain ⟨bound, all⟩ := unread_url read rfl
    have taken : source.take (source.length - u.unread) = [] := empty
    have unread : u.unread = source.length := by
      have length := congrArg List.length taken
      rw [List.length_take, List.length_nil] at length
      omega
    exact all unread

end HttpRouting.Template
