import Mathlib.Data.List.Forall2
import ContextFree.Edit.Attributes
import ContextFree.Proofs.Grammar.Alike

namespace ContextFree

variable {ε α β γ δ : Type}

inductive Agrees (S : α → β → Prop) : Except ε α → Except ε β → Prop
  | ok {a : α} {b : β} (answers : S a b) : Agrees S (.ok a) (.ok b)
  | error (failure : ε) : Agrees S (.error failure) (.error failure)

theorem Agrees.imp {S T : α → β → Prop} {x : Except ε α} {y : Except ε β} (agrees : Agrees S x y)
    (more : ∀ a b, x = .ok a → y = .ok b → S a b → T a b) : Agrees T x y := by
  cases agrees with
  | ok answers => exact .ok (more _ _ rfl rfl answers)
  | error failure => exact .error failure

namespace Edit

structure Matches (S : α → β → Prop) (first : Outcome α) (second : Outcome β) : Prop where
  result : Agrees S first.result second.result
  grammar : Alike first.grammar second.grammar
  log : first.log = second.log

def Parallel (S : α → β → Prop) (first : Edit α) (second : Edit β) : Prop :=
  ∀ g h, Alike g h → Matches S (first g) (second h)

section Steps

variable {S : α → β → Prop} {T : γ → δ → Prop}

theorem parallel_pure {a : α} {b : β} (answers : S a b) : Parallel S (pure a) (pure b) :=
  fun _ _ alike => ⟨.ok answers, alike, rfl⟩

theorem parallel_unit : Parallel Eq (pure () : Edit Unit) (pure ()) := parallel_pure rfl

theorem parallel_refuse (fault : Fault) : Parallel S (refuse fault) (refuse fault) :=
  fun _ _ alike => ⟨.error fault, alike, rfl⟩

theorem parallel_grammar : Parallel Alike grammar grammar := fun _ _ alike => ⟨.ok alike, alike, rfl⟩

theorem parallel_report (level : Level) (text : String) : Parallel Eq (report level text) (report level text) :=
  fun _ _ alike => ⟨.ok rfl, alike, rfl⟩

theorem parallel_change {f f' : Grammar → Grammar} (step : ∀ g h, Alike g h → Alike (f g) (f' h)) :
    Parallel Eq (change f) (change f') :=
  fun g h alike => ⟨.ok rfl, step g h alike, rfl⟩

theorem parallel_require (checked : Except Fault α) : Parallel Eq (require checked) (require checked) := by
  cases checked with
  | ok a => exact parallel_pure rfl
  | error fault => exact parallel_refuse fault

theorem parallel_bind {first : Edit α} {second : Edit β} {next : α → Edit γ} {next' : β → Edit δ}
    (both : Parallel S first second) (more : ∀ a b, S a b → Parallel T (next a) (next' b)) :
    Parallel T (first >>= next) (second >>= next') := by
  intro g h alike
  obtain ⟨results, grammars, logs⟩ := both g h alike
  rcases one : first g with ⟨result, k, log⟩
  rcases other : second h with ⟨result', k', log'⟩
  rw [one, other] at results grammars logs
  cases results with
  | error fault =>
    rw [bind_of_error one, bind_of_error other]
    exact ⟨.error fault, grammars, logs⟩
  | @ok a b answers =>
    rw [bind_of_ok one, bind_of_ok other]
    obtain ⟨results, grammars, rest⟩ := more a b answers k k' grammars
    refine ⟨results, grammars, ?_⟩
    show log ++ _ = log' ++ _
    rw [show log = log' from logs, rest]

theorem parallel_bind_eq {first second : Edit α} {next : α → Edit γ} {next' : α → Edit δ}
    (both : Parallel Eq first second) (more : ∀ a, Parallel T (next a) (next' a)) :
    Parallel T (first >>= next) (second >>= next') := by
  apply parallel_bind both
  rintro a _ rfl
  exact more a

theorem parallel_forM {R : α → β → Prop} {edit : α → Edit Unit} {edit' : β → Edit Unit} {items : List α}
    {others : List β} (each : List.Forall₂ R items others) (round : ∀ a b, R a b → Parallel Eq (edit a) (edit' b)) :
    Parallel Eq (items.forM edit) (others.forM edit') := by
  rw [List.forM_eq_forM, List.forM_eq_forM]
  induction each with
  | nil => exact parallel_unit
  | cons here _ ih =>
    rw [List.forM_cons, List.forM_cons]
    exact parallel_bind_eq (round _ _ here) fun _ => ih

theorem parallel_forM_eq {edit edit' : α → Edit Unit} (items : List α) (round : ∀ a, Parallel Eq (edit a) (edit' a)) :
    Parallel Eq (items.forM edit) (items.forM edit') := by
  apply parallel_forM (R := Eq) (List.forall₂_eq_eq_eq ▸ rfl)
  rintro a _ rfl
  exact round a

theorem parallel_forM_blank {edit edit' : Production → Edit Unit} {ps qs : List Production}
    (same : ps.map Production.blank = qs.map Production.blank)
    (round : ∀ p q, p.blank = q.blank → Parallel Eq (edit p) (edit' q)) :
    Parallel Eq (ps.forM edit) (qs.forM edit') := by
  apply parallel_forM _ round
  rw [← List.forall₂_eq_eq_eq, List.forall₂_map_left_iff, List.forall₂_map_right_iff] at same
  exact same

end Steps

end Edit

namespace Alike

open Edit Production

variable {g h : Grammar}

theorem putNonterminal (alike : Alike g h) (name : String) : Alike (putNonterminal name g) (putNonterminal name h) :=
  { alike with nonterminals := congrArg (·.add name) alike.nonterminals }

theorem putTerminal (alike : Alike g h) (name : String) : Alike (putTerminal name g) (putTerminal name h) :=
  { alike with terminals := congrArg (·.add name) alike.terminals }

theorem dropNonterminal (alike : Alike g h) (name : String) :
    Alike (dropNonterminal name g) (dropNonterminal name h) :=
  { alike with
    nonterminals := congrArg (·.remove name) alike.nonterminals
    attributes := fun other => by
      have same := alike.attributes other
      rw [Grammar.attributesOf?, Grammar.attributesOf?] at same ⊢
      rw [Edit.dropNonterminal, Edit.dropNonterminal, AttributeTable.get?_erase, AttributeTable.get?_erase, same] }

theorem dropSymbol (alike : Alike g h) (symbol : Symbol) : Alike (dropSymbol symbol g) (dropSymbol symbol h) := by
  cases symbol with
  | terminal name => exact { alike with terminals := congrArg (·.remove name) alike.terminals }
  | nonterminal name => exact alike.dropNonterminal name
  | empty => exact alike

theorem dropAll (alike : Alike g h) (symbols : List Symbol) :
    Alike (symbols.foldl (fun k symbol => Edit.dropSymbol symbol k) g)
      (symbols.foldl (fun k symbol => Edit.dropSymbol symbol k) h) := by
  induction symbols generalizing g h with
  | nil => exact alike
  | cons symbol rest ih => exact ih (alike.dropSymbol symbol)

theorem with_productions (alike : Alike g h) {ps qs : List Production} (same : ps.map blank = qs.map blank) :
    Alike { g with productions := ps } { h with productions := qs } :=
  { alike with productions := same }

theorem with_attributes (alike : Alike g h) (name : String) (value : Attributes) :
    Alike { g with attributes := g.attributes.set name value } { h with attributes := h.attributes.set name value } :=
  { alike with
    attributes := fun other => by
      have same := alike.attributes other
      rw [Grammar.attributesOf?, Grammar.attributesOf?] at same ⊢
      rw [AttributeTable.get?_set, AttributeTable.get?_set, same] }

end Alike

namespace Edit

open Production

section Names

theorem parallel_addNonterminal (name : String) : Parallel Eq (addNonterminal name) (addNonterminal name) := by
  apply parallel_bind_eq (parallel_require _)
  intro _
  apply parallel_bind_eq (parallel_change fun _ _ alike => alike.putNonterminal name)
  intro _
  apply parallel_bind parallel_grammar
  intro g h alike
  rw [alike.nonterminals]
  exact parallel_pure rfl

theorem parallel_addTerminal (name : String) : Parallel Eq (addTerminal name) (addTerminal name) := by
  apply parallel_bind_eq (parallel_require _)
  intro _
  apply parallel_bind_eq (parallel_change fun _ _ alike => alike.putTerminal name)
  intro _
  apply parallel_bind parallel_grammar
  intro g h alike
  rw [alike.terminals]
  exact parallel_pure rfl

theorem parallel_addSymbol (symbol : Symbol) : Parallel Eq (addSymbol symbol) (addSymbol symbol) := by
  cases symbol with
  | terminal name => exact parallel_bind_eq (parallel_addTerminal name) fun _ => parallel_unit
  | nonterminal name => exact parallel_bind_eq (parallel_addNonterminal name) fun _ => parallel_unit
  | empty => exact parallel_unit

theorem parallel_removeNonterminal (name : String) : Parallel Eq (removeNonterminal name) (removeNonterminal name) := by
  apply parallel_bind parallel_grammar
  intro g h alike
  rw [alike.nonterminals]
  split
  · exact parallel_change fun _ _ alike => alike.dropNonterminal name
  · exact parallel_refuse _

theorem parallel_removeUnused : Parallel Eq removeUnused removeUnused := by
  apply parallel_bind parallel_grammar
  intro g h alike
  rw [alike.unusedSymbols]
  apply parallel_bind_eq (parallel_change fun _ _ alike => alike.dropAll h.unusedSymbols)
  intro _
  exact parallel_pure rfl

end Names

section Productions

variable {p q : Production}

theorem parallel_addNames (same : p.blank = q.blank) : Parallel Eq (addNames p) (addNames q) := by
  rw [addNames, addNames, head_eq same, body_eq same]
  apply parallel_bind_eq (parallel_addNonterminal q.head)
  intro _
  apply parallel_bind_eq (parallel_forM_eq q.body parallel_addSymbol)
  intro _
  apply parallel_change
  intro g h alike
  exact { alike with start := congrArg (·.or (some q.head)) alike.start }

theorem parallel_addProduction (same : p.blank = q.blank) : Parallel Eq (addProduction p) (addProduction q) := by
  have checks : checkProduction p = checkProduction q := by
    rw [← p.checkProduction_blank, same, q.checkProduction_blank]
  rw [addProduction, addProduction, checks]
  apply parallel_bind_eq (parallel_require _)
  intro _
  apply parallel_bind_eq (parallel_addNames same)
  intro _
  apply parallel_change
  intro g h alike
  apply alike.with_productions
  rw [List.map_append, List.map_append, alike.productions, List.map_singleton, List.map_singleton, same]

theorem parallel_addNewRule (same : p.blank = q.blank) : Parallel Eq (addNewRule p) (addNewRule q) := by
  apply parallel_bind parallel_grammar
  intro g h alike
  rw [alike.any_sameRule same]
  split
  · exact parallel_unit
  · exact parallel_addProduction same

theorem parallel_keepProductions {keep : Production → Bool} (blanked : ∀ p, keep p.blank = keep p) :
    Parallel Eq (keepProductions keep) (keepProductions keep) := by
  apply parallel_bind parallel_grammar
  intro g h before
  rw [before.length]
  have filtered : ∀ g h, Alike g h → Alike { g with productions := g.productions.filter keep }
      { h with productions := h.productions.filter keep } := by
    intro g h alike
    apply alike.with_productions
    rw [map_blank_filter blanked, alike.productions, map_blank_filter blanked]
  apply parallel_bind_eq (parallel_change filtered)
  intro _
  apply parallel_bind parallel_grammar
  intro k l after
  rw [after.length]
  exact parallel_pure rfl

theorem parallel_takeProductions :
    Parallel (fun ps qs => ps.map blank = qs.map blank) takeProductions takeProductions := by
  apply parallel_bind parallel_grammar
  intro g h alike
  apply parallel_bind_eq (parallel_change fun _ _ alike => alike.with_productions rfl)
  intro _
  exact parallel_pure alike.productions

theorem parallel_productionAt (index : Nat) :
    Parallel (fun p q => p.blank = q.blank) (productionAt index) (productionAt index) := by
  apply parallel_bind parallel_grammar
  intro g h alike
  have same : g.productions[index]?.map blank = h.productions[index]?.map blank := by
    rw [← List.getElem?_map, alike.productions, List.getElem?_map]
  dsimp only
  rw [alike.length]
  cases here : g.productions[index]? with
  | none =>
    rw [here] at same
    rw [Option.map_eq_none_iff.1 same.symm]
    exact parallel_refuse _
  | some p =>
    rw [here] at same
    obtain ⟨q, there, alike⟩ := Option.map_eq_some_iff.1 same.symm
    rw [there]
    exact parallel_pure alike.symm

theorem parallel_setBody (index : Nat) (body : Body) : Parallel Eq (setBody index body) (setBody index body) := by
  apply parallel_change
  intro g h alike
  apply alike.with_productions
  rw [map_blank_modify, alike.productions, map_blank_modify]

end Productions

section Attributes

theorem parallel_checkAttribute (name : String) (letter : Char) :
    Parallel Eq (checkAttribute name letter) (checkAttribute name letter) := by
  apply parallel_bind parallel_grammar
  intro g h alike
  rw [alike.nonterminals, alike.attributesOf]
  split
  · exact parallel_bind_eq (parallel_require _) fun _ => parallel_pure rfl
  · exact parallel_refuse _

theorem parallel_setAttributes (name : String) (value : Attributes) :
    Parallel Eq (setAttributes name value) (setAttributes name value) :=
  parallel_change fun _ _ alike => alike.with_attributes name value

theorem parallel_addInherited (name : String) (letter : Char) :
    Parallel Eq (addInherited name letter) (addInherited name letter) := by
  apply parallel_bind_eq (parallel_checkAttribute name letter)
  intro attributes
  split
  · exact parallel_refuse _
  · exact parallel_setAttributes name _

theorem parallel_addSynthesized (name : String) (letter : Char) :
    Parallel Eq (addSynthesized name letter) (addSynthesized name letter) := by
  apply parallel_bind_eq (parallel_checkAttribute name letter)
  intro attributes
  split
  · exact parallel_refuse _
  · exact parallel_setAttributes name _

theorem parallel_mergeAttributes (name : String) (source : Attributes) :
    Parallel Eq (mergeAttributes name source) (mergeAttributes name source) := by
  apply parallel_bind_eq (parallel_forM_eq _ (parallel_addInherited name))
  intro _
  exact parallel_forM_eq _ (parallel_addSynthesized name)

end Attributes

end Edit

end ContextFree
