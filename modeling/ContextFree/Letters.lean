namespace ContextFree

/-- A set of letters, in ascending order, so that equal sets are equal values and are written the same way. -/
structure Letters where
  toList : List Char
  ascending : toList.Pairwise (· < ·)
  deriving DecidableEq

namespace Letters

def isLetter (c : Char) : Bool := 'a' ≤ c && c ≤ 'z'

def insertInto (c : Char) : List Char → List Char
  | [] => [c]
  | a :: rest => if c < a then c :: a :: rest else if c = a then a :: rest else a :: insertInto c rest

theorem mem_insertInto {c a : Char} {letters : List Char} :
    a ∈ insertInto c letters ↔ a = c ∨ a ∈ letters := by
  induction letters with
  | nil => simp [insertInto]
  | cons b rest ih =>
    rw [insertInto]
    split
    · simp
    · split
      · next same => subst same; simp
      · rw [List.mem_cons, ih, List.mem_cons]
        exact or_left_comm

theorem ascending_insertInto {c : Char} {letters : List Char}
    (ascending : letters.Pairwise (· < ·)) : (insertInto c letters).Pairwise (· < ·) := by
  induction letters with
  | nil => simp [insertInto]
  | cons a rest ih =>
    rw [List.pairwise_cons] at ascending
    rw [insertInto]
    split
    · next below =>
      refine List.pairwise_cons.2 ⟨fun b member => ?_, List.pairwise_cons.2 ascending⟩
      rcases List.mem_cons.1 member with rfl | member
      · exact below
      · exact Char.lt_trans below (ascending.1 b member)
    · split
      · exact List.pairwise_cons.2 ascending
      · next notBelow distinct =>
        refine List.pairwise_cons.2 ⟨fun b member => ?_, ih ascending.2⟩
        rcases mem_insertInto.1 member with rfl | member
        · exact Decidable.byContradiction fun notAbove =>
            distinct (Char.le_antisymm (Char.not_lt.1 notAbove) (Char.not_lt.1 notBelow))
        · exact ascending.1 b member

def empty : Letters := ⟨[], List.Pairwise.nil⟩

instance : Inhabited Letters := ⟨empty⟩

instance : EmptyCollection Letters := ⟨empty⟩

instance : Membership Char Letters := ⟨fun letters c => c ∈ letters.toList⟩

instance (c : Char) (letters : Letters) : Decidable (c ∈ letters) :=
  inferInstanceAs (Decidable (c ∈ letters.toList))

def insert (c : Char) (letters : Letters) : Letters :=
  ⟨insertInto c letters.toList, ascending_insertInto letters.ascending⟩

def isEmpty (letters : Letters) : Bool := letters.toList.isEmpty

def union (s t : Letters) : Letters := t.toList.foldl (fun letters c => letters.insert c) s

def ofList (letters : List Char) : Letters := letters.foldl (fun set c => set.insert c) ∅

def text (letters : Letters) : String :=
  String.intercalate "," (letters.toList.map String.singleton)

@[simp] theorem not_mem_empty (c : Char) : c ∉ (∅ : Letters) := List.not_mem_nil

@[simp] theorem mem_insert {a c : Char} {letters : Letters} :
    a ∈ letters.insert c ↔ a = c ∨ a ∈ letters := mem_insertInto

theorem mem_foldl_insert {a : Char} {letters : Letters} (more : List Char) :
    a ∈ more.foldl (fun set c => set.insert c) letters ↔ a ∈ letters ∨ a ∈ more := by
  induction more generalizing letters with
  | nil => simp
  | cons c rest ih => rw [List.foldl_cons, ih, mem_insert, List.mem_cons, or_comm (a := a = c), or_assoc]

@[simp] theorem mem_union {a : Char} {s t : Letters} : a ∈ s.union t ↔ a ∈ s ∨ a ∈ t :=
  mem_foldl_insert t.toList

@[simp] theorem mem_ofList {a : Char} {letters : List Char} : a ∈ ofList letters ↔ a ∈ letters := by
  simp [ofList, mem_foldl_insert]

theorem ext_mem {s t : Letters} (same : ∀ c, c ∈ s ↔ c ∈ t) : s = t := by
  obtain ⟨s, hs⟩ := s
  obtain ⟨t, ht⟩ := t
  have perm : s.Perm t := by
    refine List.perm_iff_count.2 fun c => ?_
    have ns : s.Nodup := hs.imp fun less => Char.ne_of_lt less
    have nt : t.Nodup := ht.imp fun less => Char.ne_of_lt less
    rw [List.Nodup.count ns, List.Nodup.count nt]
    have equal : c ∈ s ↔ c ∈ t := same c
    simp only [equal]
  have equal : s = t := perm.eq_of_pairwise
    (fun a b _ _ ab ba => absurd (Char.lt_trans ab ba) (Char.lt_irrefl a)) hs ht
  subst equal
  rfl

end Letters

end ContextFree
