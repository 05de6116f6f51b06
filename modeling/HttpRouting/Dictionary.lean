namespace HttpRouting

structure Dictionary (κ α : Type) [Ord κ] where
  entries : List (κ × α)
  sorted : entries.Pairwise (fun a b => compare a.1 b.1 = .lt)
deriving DecidableEq

namespace Dictionary

variable {κ α : Type} [Ord κ]

def place (k : κ) (v : α) : List (κ × α) → List (κ × α)
  | [] => [(k, v)]
  | (k', v') :: rest =>
    match compare k k' with
    | .lt => (k, v) :: (k', v') :: rest
    | .eq => (k', v) :: rest
    | .gt => (k', v') :: place k v rest

def lookup (k : κ) : List (κ × α) → Option α
  | [] => none
  | (k', v) :: rest => if compare k k' = .eq then some v else lookup k rest

def empty : Dictionary κ α := ⟨[], .nil⟩

instance : EmptyCollection (Dictionary κ α) := ⟨empty⟩
instance : Inhabited (Dictionary κ α) := ⟨empty⟩

def find? (d : Dictionary κ α) (k : κ) : Option α := lookup k d.entries

def contains (d : Dictionary κ α) (k : κ) : Bool := (d.find? k).isSome

def keys (d : Dictionary κ α) : List κ := d.entries.map (·.1)

def values (d : Dictionary κ α) : List α := d.entries.map (·.2)

def size (d : Dictionary κ α) : Nat := d.entries.length

def isEmpty (d : Dictionary κ α) : Bool := d.entries.isEmpty

def map {β : Type} (f : α → β) (d : Dictionary κ α) : Dictionary κ β :=
  ⟨d.entries.map (fun e => (e.1, f e.2)), by simpa [List.pairwise_map] using d.sorted⟩

def erase (d : Dictionary κ α) (k : κ) : Dictionary κ α :=
  ⟨d.entries.filter (fun e => compare k e.1 != .eq), d.sorted.filter _⟩

theorem key_of_mem_place {k : κ} {v : α} {entries : List (κ × α)} {e : κ × α}
    (h : e ∈ place k v entries) : e.1 = k ∨ ∃ e' ∈ entries, e.1 = e'.1 := by
  induction entries with
  | nil => simp_all [place]
  | cons head rest ih => grind [place]

variable [Std.TransOrd κ]

theorem sorted_place {k : κ} {v : α} {entries : List (κ × α)}
    (h : entries.Pairwise (fun a b => compare a.1 b.1 = .lt)) :
    (place k v entries).Pairwise (fun a b => compare a.1 b.1 = .lt) := by
  induction entries with
  | nil => simp [place]
  | cons head rest ih =>
    obtain ⟨first, tail⟩ := List.pairwise_cons.mp h
    rw [place]
    split
    · rename_i lt
      refine List.pairwise_cons.mpr ⟨fun e he => ?_, h⟩
      rcases List.mem_cons.mp he with rfl | he
      · exact lt
      · exact Std.TransCmp.lt_trans lt (first e he)
    · exact List.pairwise_cons.mpr ⟨first, tail⟩
    · rename_i gt
      refine List.pairwise_cons.mpr ⟨fun e he => ?_, ih tail⟩
      rcases key_of_mem_place he with eq | ⟨e', he', eq⟩
      · simpa [eq] using Std.OrientedCmp.lt_of_gt gt
      · simpa [eq] using first e' he'

def insert (d : Dictionary κ α) (k : κ) (v : α) : Dictionary κ α :=
  ⟨place k v d.entries, sorted_place d.sorted⟩

def insertIfNew (d : Dictionary κ α) (k : κ) (v : α) : Dictionary κ α :=
  if d.contains k then d else d.insert k v

def ofList (pairs : List (κ × α)) : Dictionary κ α :=
  pairs.foldl (fun d e => d.insert e.1 e.2) ∅

def merge (d d' : Dictionary κ α) : Dictionary κ α :=
  d'.entries.foldl (fun d e => d.insert e.1 e.2) d

end Dictionary

end HttpRouting
