namespace ContextFree

structure Table where
  names : List String := []
  distinct : names.Nodup := by simp
  deriving DecidableEq

namespace Table

instance : EmptyCollection Table := ⟨{}⟩

instance : Membership String Table := ⟨fun table name => name ∈ table.names⟩

instance (name : String) (table : Table) : Decidable (name ∈ table) :=
  inferInstanceAs (Decidable (name ∈ table.names))

def size (table : Table) : Nat := table.names.length

def index? (table : Table) (name : String) : Option Nat := table.names.idxOf? name

def add (table : Table) (name : String) : Table :=
  if present : name ∈ table.names then table
  else ⟨table.names ++ [name], by
    rw [List.nodup_append]
    refine ⟨table.distinct, by simp, fun a member b isName => ?_⟩
    rw [List.mem_singleton] at isName
    exact fun equal => present (isName ▸ equal ▸ member)⟩

def remove (table : Table) (name : String) : Table :=
  ⟨table.names.erase name, table.distinct.erase name⟩

def same (s t : Table) : Bool :=
  s.size == t.size && s.names.all fun name => decide (name ∈ t)

theorem names_add (table : Table) (name : String) :
    (table.add name).names = if name ∈ table.names then table.names else table.names ++ [name] := by
  unfold add
  split <;> rfl

@[simp] theorem mem_add {table : Table} {name other : String} :
    other ∈ table.add name ↔ other = name ∨ other ∈ table := by
  change other ∈ (table.add name).names ↔ other = name ∨ other ∈ table.names
  rw [names_add]
  split
  · next present =>
    exact ⟨Or.inr, fun either => either.elim (fun same => same ▸ present) id⟩
  · rw [List.mem_append, List.mem_singleton, or_comm]

@[simp] theorem mem_remove {table : Table} {name other : String} :
    other ∈ table.remove name ↔ other ≠ name ∧ other ∈ table :=
  table.distinct.mem_erase_iff

@[simp] theorem not_mem_empty (name : String) : name ∉ (∅ : Table) := List.not_mem_nil

theorem add_of_mem {table : Table} {name : String} (present : name ∈ table) :
    table.add name = table := dif_pos present

end Table

end ContextFree
