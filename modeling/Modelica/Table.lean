/-
Tables that remember the order in which their keys were first entered.

Writing a key that is already there changes its value and keeps its place
(`keys_insert_of_mem`); a new key goes to the end (`keys_insert_of_not_mem`).
`get?_insert_self` and `get?_insert_other` say what a look-up sees.
-/
namespace Modelica

/-- A finite map whose entries stand in order of first insertion. -/
structure Table (κ : Type) (α : Type) where
  entries : List (κ × α) := []
deriving Repr, DecidableEq

namespace Table

variable {κ α β : Type} [DecidableEq κ]

instance : Inhabited (Table κ α) := ⟨{}⟩

def empty : Table κ α := {}

def keys (t : Table κ α) : List κ := t.entries.map (·.1)

def values (t : Table κ α) : List α := t.entries.map (·.2)

def isEmpty (t : Table κ α) : Bool := t.entries.isEmpty

def lookup (k : κ) : List (κ × α) → Option α
  | [] => none
  | (k', a) :: rest => if k' = k then some a else lookup k rest

def put (k : κ) (a : α) : List (κ × α) → List (κ × α)
  | [] => [(k, a)]
  | (k', b) :: rest => if k' = k then (k', a) :: rest else (k', b) :: put k a rest

def get? (t : Table κ α) (k : κ) : Option α := lookup k t.entries

def contains (t : Table κ α) (k : κ) : Bool := (t.get? k).isSome

def insert (t : Table κ α) (k : κ) (a : α) : Table κ α := ⟨put k a t.entries⟩

def erase (t : Table κ α) (k : κ) : Table κ α := ⟨t.entries.filter (fun e => e.1 ≠ k)⟩

def insertAll (t other : Table κ α) : Table κ α :=
  other.entries.foldl (fun acc e => acc.insert e.1 e.2) t

def ofList (entries : List (κ × α)) : Table κ α :=
  entries.foldl (fun acc e => acc.insert e.1 e.2) {}

def map (f : α → β) (t : Table κ α) : Table κ β := ⟨t.entries.map fun e => (e.1, f e.2)⟩

theorem get?_insert_self (t : Table κ α) (k : κ) (a : α) : (t.insert k a).get? k = some a := by
  obtain ⟨es⟩ := t
  simp only [insert, get?]
  induction es with
  | nil => simp [put, lookup]
  | cons e es ih =>
    by_cases h : e.1 = k <;> simp [put, lookup, h, ih]

theorem get?_insert_other (t : Table κ α) {k k' : κ} (a : α) (h : k' ≠ k) :
    (t.insert k a).get? k' = t.get? k' := by
  obtain ⟨es⟩ := t
  simp only [insert, get?]
  induction es with
  | nil => simp [put, lookup, h.symm]
  | cons e es ih =>
    by_cases hk : e.1 = k
    · simp [put, lookup, hk, h.symm]
    · simp [put, lookup, hk, ih]

theorem keys_insert_of_mem (t : Table κ α) {k : κ} (a : α) (h : k ∈ t.keys) :
    (t.insert k a).keys = t.keys := by
  obtain ⟨es⟩ := t
  simp only [insert, keys] at h ⊢
  induction es with
  | nil => simp at h
  | cons e es ih =>
    by_cases hk : e.1 = k
    · simp [put, hk]
    · have : k ∈ es.map (·.1) := by
        rcases List.mem_cons.1 h with h | h
        · exact absurd h.symm hk
        · exact h
      simpa [put, hk] using ih this

theorem keys_insert_of_not_mem (t : Table κ α) {k : κ} (a : α) (h : k ∉ t.keys) :
    (t.insert k a).keys = t.keys ++ [k] := by
  obtain ⟨es⟩ := t
  simp only [insert, keys] at h ⊢
  induction es with
  | nil => simp [put]
  | cons e es ih =>
    simp only [List.map_cons, List.mem_cons, not_or] at h
    have hk : ¬ e.1 = k := fun he => h.1 he.symm
    simpa [put, hk] using ih h.2

theorem get?_erase_self (t : Table κ α) (k : κ) : (t.erase k).get? k = none := by
  obtain ⟨es⟩ := t
  simp only [erase, get?]
  induction es with
  | nil => simp [lookup]
  | cons e es ih =>
    by_cases h : e.1 = k <;> simp_all [lookup]

end Table
end Modelica
