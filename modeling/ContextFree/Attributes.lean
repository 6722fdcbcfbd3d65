import ContextFree.Letters

namespace ContextFree

/-- The set an attribute reference points into; a static attribute may be in either set. -/
inductive AttributeKind where
  | inherited
  | synthesized
  | static
  deriving DecidableEq

namespace AttributeKind

def mark : AttributeKind → Char
  | .inherited => '&'
  | .synthesized => '$'
  | .static => '!'

def ofMark (c : Char) : Option AttributeKind :=
  if c = '&' then some .inherited
  else if c = '$' then some .synthesized
  else if c = '!' then some .static
  else none

theorem ofMark_mark (kind : AttributeKind) : ofMark kind.mark = some kind := by
  cases kind <;> rfl

def word : AttributeKind → String
  | .inherited => "inherited"
  | .synthesized => "synthesized"
  | .static => "static"

end AttributeKind

structure Attributes where
  inherited : Letters := ∅
  synthesized : Letters := ∅
  deriving DecidableEq

namespace Attributes

instance : EmptyCollection Attributes := ⟨{}⟩

def isEmpty (a : Attributes) : Bool := a.inherited.isEmpty && a.synthesized.isEmpty

def static (a : Attributes) : Letters := a.inherited.union a.synthesized

def ofKind (a : Attributes) : AttributeKind → Letters
  | .inherited => a.inherited
  | .synthesized => a.synthesized
  | .static => a.static

def headText (a : Attributes) : String := a.inherited.text ++ ";" ++ a.synthesized.text

def bodyText (a : Attributes) : String := a.static.text

@[simp] theorem mem_static {c : Char} {a : Attributes} :
    c ∈ a.static ↔ c ∈ a.inherited ∨ c ∈ a.synthesized := Letters.mem_union

end Attributes

/-- At most one entry for a name. -/
structure AttributeTable where
  entries : List (String × Attributes) := []
  distinct : (entries.map Prod.fst).Nodup := by simp

namespace AttributeTable

instance : EmptyCollection AttributeTable := ⟨{}⟩

def getIn (name : String) : List (String × Attributes) → Option Attributes
  | [] => none
  | entry :: rest => if entry.1 = name then some entry.2 else getIn name rest

def get? (table : AttributeTable) (name : String) : Option Attributes := getIn name table.entries

def setIn (name : String) (value : Attributes) :
    List (String × Attributes) → List (String × Attributes)
  | [] => [(name, value)]
  | entry :: rest =>
    if entry.1 = name then (name, value) :: rest else entry :: setIn name value rest

theorem mem_names_setIn {name other : String} {value : Attributes}
    {entries : List (String × Attributes)} :
    other ∈ (setIn name value entries).map Prod.fst ↔ other = name ∨ other ∈ entries.map Prod.fst := by
  induction entries with
  | nil => simp [setIn]
  | cons entry rest ih =>
    rw [setIn]
    split
    · next same => subst same; simp
    · rw [List.map_cons, List.mem_cons, ih, List.map_cons, List.mem_cons]
      exact or_left_comm

theorem distinct_setIn {name : String} {value : Attributes} {entries : List (String × Attributes)}
    (distinct : (entries.map Prod.fst).Nodup) :
    ((setIn name value entries).map Prod.fst).Nodup := by
  induction entries with
  | nil => simp [setIn]
  | cons entry rest ih =>
    rw [List.map_cons, List.nodup_cons] at distinct
    rw [setIn]
    split
    · next same =>
      subst same
      exact List.nodup_cons.2 distinct
    · next other =>
      refine List.nodup_cons.2 ⟨fun member => ?_, ih distinct.2⟩
      rcases mem_names_setIn.1 member with same | member
      · exact other same
      · exact distinct.1 member

theorem getIn_setIn {name other : String} {value : Attributes}
    {entries : List (String × Attributes)} :
    getIn other (setIn name value entries) = if other = name then some value else getIn other entries := by
  induction entries with
  | nil => simp [setIn, getIn, eq_comm]
  | cons entry rest ih =>
    rw [setIn]
    split
    · next same =>
      by_cases here : other = name
      · simp [getIn, here]
      · simp [getIn, same, here, Ne.symm here]
    · next differs =>
      rw [getIn, ih, getIn]
      by_cases here : other = name
      · simp [here, differs]
      · simp [here]

theorem getIn_filter {name other : String} {entries : List (String × Attributes)} :
    getIn other (entries.filter (·.1 != name)) = if other = name then none else getIn other entries := by
  induction entries with
  | nil => simp [getIn]
  | cons entry rest ih =>
    rw [List.filter_cons]
    split
    · next differs =>
      rw [getIn, ih, getIn]
      by_cases here : other = name
      · simp only [here, if_true]
        simp_all
      · simp [here]
    · next same =>
      rw [ih, getIn]
      by_cases here : other = name
      · simp [here]
      · simp_all [Ne.symm here]

def set (table : AttributeTable) (name : String) (value : Attributes) : AttributeTable :=
  ⟨setIn name value table.entries, distinct_setIn table.distinct⟩

def erase (table : AttributeTable) (name : String) : AttributeTable :=
  ⟨table.entries.filter (·.1 != name),
    (List.filter_sublist.map Prod.fst).nodup table.distinct⟩

@[simp] theorem get?_set (table : AttributeTable) (name other : String) (value : Attributes) :
    (table.set name value).get? other = if other = name then some value else table.get? other :=
  getIn_setIn

@[simp] theorem get?_erase (table : AttributeTable) (name other : String) :
    (table.erase name).get? other = if other = name then none else table.get? other :=
  getIn_filter

def same (s t : AttributeTable) : Bool :=
  s.entries.length == t.entries.length && s.entries.all fun entry => t.get? entry.1 == some entry.2

end AttributeTable

end ContextFree
