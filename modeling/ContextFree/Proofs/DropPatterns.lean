import ContextFree.Analysis.Nullable
import Mathlib.Data.Finset.Powerset
import Mathlib.Data.List.Sublists

namespace ContextFree.Nullable

variable {nullable deleted : List String} {symbol : Symbol} {body : Body} {entries : List (Symbol × Nat)} {i : Nat}

def remaining (deleted : List String) (body : Body) : Body :=
  body.filter fun symbol => symbol ≠ .empty ∧ ∀ name ∈ deleted, symbol ≠ .nonterminal name

/-- The places at which a nullable nonterminal stands. -/
def occurrences (nullable : List String) (body : Body) : Finset Nat :=
  (Finset.range body.length).filter fun i => ∃ name ∈ nullable, body[i]? = some (.nonterminal name)

/-- What stays of numbered symbols when those with the chosen numbers go. -/
def leaveOut (choice : Finset Nat) (entries : List (Symbol × Nat)) : Body :=
  (entries.filter fun entry => entry.2 ∉ choice).map Prod.fst

theorem isDropped_eq_false_iff : isDropped deleted symbol = false ↔
    symbol ≠ .empty ∧ ∀ name ∈ deleted, symbol ≠ .nonterminal name := by
  cases symbol <;> simp [isDropped, List.forall_mem_ne]

theorem isNullable_iff (filled : symbol ≠ .empty) : isNullable nullable symbol = true ↔
    ∃ name ∈ nullable, symbol = .nonterminal name := by
  cases symbol with
  | empty => exact absurd rfl filled
  | _ => simp [isNullable]

theorem remaining_eq (deleted : List String) (body : Body) :
    remaining deleted body = body.filter fun symbol => !isDropped deleted symbol := by
  apply List.filter_congr
  intro symbol _
  rw [Bool.eq_iff_iff, decide_eq_true_iff, Bool.not_eq_true', isDropped_eq_false_iff]

theorem expansions_remaining (nullable deleted : List String) (body : Body) :
    expansions nullable deleted (remaining deleted body) = expansions nullable deleted body := by
  rw [remaining_eq]
  induction body with
  | nil => rfl
  | cons symbol rest ih =>
    rw [List.filter_cons]
    by_cases dropped : isDropped deleted symbol = true
    · rw [expansions, if_pos dropped, if_neg (by simp [dropped]), ih]
    · rw [if_pos (by simp [dropped]), expansions, expansions, ih]

/-- The numbers of the symbols that may be left out. -/
def optional (nullable : List String) (entries : List (Symbol × Nat)) : List Nat :=
  (entries.filter fun entry => isNullable nullable entry.1).map Prod.snd

theorem optional_sublist (nullable : List String) (entries : List (Symbol × Nat)) :
    (optional nullable entries).Sublist (entries.map Prod.snd) :=
  List.filter_sublist.map Prod.snd

theorem optional_cons : optional nullable ((symbol, i) :: entries) =
    if isNullable nullable symbol then i :: optional nullable entries else optional nullable entries := by
  rw [optional, List.filter_cons]
  split
  · rw [List.map_cons, optional]
  · rw [optional]

theorem leaveOut_empty : leaveOut ∅ entries = entries.map Prod.fst := by
  simp [leaveOut]

theorem leaveOut_cons_of_mem {choice : Finset Nat} (chosen : i ∈ choice) :
    leaveOut choice ((symbol, i) :: entries) = leaveOut choice entries := by
  rw [leaveOut, List.filter_cons_of_neg (by simpa using chosen), leaveOut]

theorem leaveOut_cons_of_not_mem {choice : Finset Nat} (spared : i ∉ choice) :
    leaveOut choice ((symbol, i) :: entries) = symbol :: leaveOut choice entries := by
  rw [leaveOut, List.filter_cons_of_pos (by simpa using spared), List.map_cons, leaveOut]

theorem leaveOut_insert {choice : Finset Nat} (foreign : i ∉ entries.map Prod.snd) :
    leaveOut (insert i choice) entries = leaveOut choice entries := by
  unfold leaveOut
  congr 1
  apply List.filter_congr
  intro entry member
  have other : entry.2 ≠ i := by
    rintro rfl
    exact foreign (List.mem_map_of_mem member)
  simp [other]

/-- The variants in their order: those that keep the first occurrence stand before those that leave it out. -/
theorem expansions_eq_sublists (nullable : List String) (distinct : (entries.map Prod.snd).Nodup)
    (stay : ∀ entry ∈ entries, isDropped deleted entry.1 = false) :
    expansions nullable deleted (entries.map Prod.fst) =
      (optional nullable entries).sublists'.map fun places => leaveOut places.toFinset entries := by
  induction entries with
  | nil => rfl
  | cons entry rest ih =>
    obtain ⟨symbol, i⟩ := entry
    rw [List.map_cons, List.nodup_cons] at distinct
    obtain ⟨foreign, distinct⟩ := distinct
    have stays : isDropped deleted symbol = false := stay (symbol, i) List.mem_cons_self
    have tail := ih distinct fun entry member => stay entry (List.mem_cons_of_mem _ member)
    -- No choice made in the rest names the first number, so that it spares the first symbol.
    have kept : (expansions nullable deleted (rest.map Prod.fst)).map (symbol :: ·) =
        (optional nullable rest).sublists'.map fun places => leaveOut places.toFinset ((symbol, i) :: rest) := by
      rw [tail, List.map_map]
      apply List.map_congr_left
      intro places listed
      have spared : i ∉ places := fun member =>
        foreign ((optional_sublist nullable rest).subset ((List.mem_sublists'.1 listed).subset member))
      exact (leaveOut_cons_of_not_mem (by simpa using spared)).symm
    have left : expansions nullable deleted (rest.map Prod.fst) =
        (optional nullable rest).sublists'.map fun places => leaveOut (i :: places).toFinset ((symbol, i) :: rest) := by
      rw [tail]
      apply List.map_congr_left
      intro places _
      rw [leaveOut_cons_of_mem (by simp), List.toFinset_cons, leaveOut_insert foreign]
    rw [List.map_cons, expansions, if_neg (by simp [stays])]
    by_cases null : isNullable nullable symbol = true
    · rw [if_pos null, optional_cons, if_pos null, List.sublists'_cons, List.map_append, List.map_map, kept]
      exact congrArg _ left
    · rw [if_neg null, optional_cons, if_neg null, kept]

/-- Going through the body from its front, every symbol lengthens the bodies begun so far. -/
def lengthen (nullable deleted : List String) (fronts : List Body) (symbol : Symbol) : List Body :=
  if isDropped deleted symbol then fronts
  else if isNullable nullable symbol then fronts.flatMap fun front => [front ++ [symbol], front]
  else fronts.map fun front => front ++ [symbol]

theorem foldl_lengthen (fronts : List Body) : body.foldl (lengthen nullable deleted) fronts =
    fronts.flatMap fun front => (expansions nullable deleted body).map fun variant => front ++ variant := by
  induction body generalizing fronts with
  | nil => simp [expansions]
  | cons symbol rest ih =>
    rw [List.foldl_cons, ih, lengthen, expansions]
    split
    · rfl
    · split
      · simp [List.flatMap_assoc, Function.comp_def]
      · simp [List.flatMap_map, Function.comp_def]

section Choices

variable {places : List Nat}

theorem head?_sublists' (places : List Nat) : places.sublists'.head? = some [] := by
  induction places with
  | nil => rfl
  | cons place rest ih => rw [List.sublists'_cons, List.head?_append, ih, Option.some_or]

theorem nodup_choices (distinct : places.Nodup) : (places.sublists'.map List.toFinset).Nodup := by
  -- A sublist repeats nothing, so it is the same choice as a set and as a multiset.
  have contents : (places.sublists'.map List.toFinset).map Finset.val = places.sublists'.map Multiset.ofList := by
    rw [List.map_map]
    apply List.map_congr_left
    intro choice listed
    have once := distinct.sublist (List.mem_sublists'.1 listed)
    simp [once.dedup]
  have apart : (places.sublists'.map Multiset.ofList).Nodup := by
    rw [← Multiset.coe_nodup, ← Multiset.powerset_coe', Multiset.nodup_powerset]
    exact distinct
  rw [← contents] at apart
  exact apart.of_map Finset.val

theorem toFinset_choices (places : List Nat) :
    (places.sublists'.map List.toFinset).toFinset = places.toFinset.powerset := by
  ext choice
  rw [List.mem_toFinset, List.mem_map, Finset.mem_powerset]
  constructor
  · rintro ⟨part, listed, rfl⟩
    exact Multiset.toFinset_subset.2 (List.mem_sublists'.1 listed).subset
  · intro within
    refine ⟨places.filter (· ∈ choice), List.mem_sublists'.2 List.filter_sublist, ?_⟩
    ext place
    simpa using fun chosen => List.mem_toFinset.1 (within chosen)

end Choices

theorem toFinset_optional (filled : Symbol.empty ∉ body) :
    (optional nullable body.zipIdx).toFinset = occurrences nullable body := by
  ext i
  rw [List.mem_toFinset, optional, List.mem_map, occurrences, Finset.mem_filter, Finset.mem_range]
  constructor
  · rintro ⟨entry, member, rfl⟩
    obtain ⟨listed, null⟩ := List.mem_filter.1 member
    have here := List.mem_zipIdx_iff_getElem?.1 listed
    have stands : entry.1 ∈ body := List.mem_of_getElem? here
    obtain ⟨name, known, same⟩ := (isNullable_iff fun none => filled (none ▸ stands)).1 null
    exact ⟨(List.getElem?_eq_some_iff.1 here).1, name, known, same ▸ here⟩
  · rintro ⟨-, name, known, here⟩
    have null : isNullable nullable (.nonterminal name) = true := List.contains_iff_mem.2 known
    exact ⟨(.nonterminal name, i), List.mem_filter.2 ⟨List.mem_zipIdx_iff_getElem?.2 here, null⟩, rfl⟩

/-- A body has one variant for each set of occurrences of nullable nonterminals: what can stay of it, less these
occurrences. The variant that leaves out nothing more comes first. Read from its front, with a list of bodies begun,
or from its end, the body gives the same variants in the same order. -/
theorem expansions_exact (nullable deleted : List String) (body : Body) :
    (∃ choices : List (Finset Nat), choices.Nodup ∧ choices.head? = some ∅ ∧
      choices.toFinset = (occurrences nullable (remaining deleted body)).powerset ∧
      expansions nullable deleted body = choices.map fun choice => leaveOut choice (remaining deleted body).zipIdx) ∧
    (expansions nullable deleted body).length = 2 ^ (occurrences nullable (remaining deleted body)).card ∧
    (expansions nullable deleted body).head? = some (remaining deleted body) ∧
    body.foldl (lengthen nullable deleted) [[]] = expansions nullable deleted body := by
  have stay : ∀ symbol ∈ remaining deleted body, isDropped deleted symbol = false := by
    intro symbol member
    rw [remaining_eq, List.mem_filter, Bool.not_eq_true'] at member
    exact member.2
  have filled : Symbol.empty ∉ remaining deleted body := fun member => nomatch stay _ member
  have numbers : ((remaining deleted body).zipIdx.map Prod.snd).Nodup := by
    rw [List.zipIdx_map_snd]
    exact List.nodup_range'
  have listed := expansions_eq_sublists nullable numbers fun entry member =>
    stay entry.1 (List.mem_of_getElem? (List.mem_zipIdx_iff_getElem?.1 member))
  rw [List.zipIdx_map_fst, expansions_remaining] at listed
  have distinct := numbers.sublist (optional_sublist nullable _)
  refine ⟨⟨_, nodup_choices distinct, ?_, ?_, ?_⟩, ?_, ?_, ?_⟩
  · rw [List.head?_map, head?_sublists']
    rfl
  · rw [toFinset_choices, toFinset_optional filled]
  · rw [listed, List.map_map]
    rfl
  · rw [listed, List.length_map, List.length_sublists', ← toFinset_optional filled,
      List.toFinset_card_of_nodup distinct]
  · rw [listed, List.head?_map, head?_sublists', Option.map_some, List.toFinset_nil, leaveOut_empty,
      List.zipIdx_map_fst]
  · rw [foldl_lengthen]
    simp

-- Each A goes by itself, so two of the variants are the same. B never stays.
example : expansions ["A", "B"] ["B"] [.nonterminal "A", .nonterminal "B", .empty, .nonterminal "A"] =
    [[.nonterminal "A", .nonterminal "A"], [.nonterminal "A"], [.nonterminal "A"], []] := by decide +kernel

end ContextFree.Nullable
