import ContextFree.Analysis.Nullable
import ContextFree.Analysis.Reach
import ContextFree.Edit.Productions
import ContextFree.Pass.Helpers

namespace ContextFree

namespace Weight

/-- Of a weight that is accepted only this is left, whether it is the number zero. -/
def blank (w : Weight) : Weight :=
  match w.check with
  | .ok () => if w.isZero then .number .zero else .one
  | .error _ => w

theorem check_blank (w : Weight) : w.blank.check = w.check := by
  unfold blank
  split
  · next accepted =>
    rw [accepted]
    split <;> rfl
  · rfl

theorem isZero_blank (w : Weight) : w.blank.isZero = w.isZero := by
  unfold blank
  split
  · split
    · next zero =>
      rw [zero]
      rfl
    · next nonzero =>
      rw [Bool.eq_false_iff.2 nonzero]
      rfl
  · rfl

end Weight

namespace Production

variable {p q : Production} {ps qs : List Production}

def blank (p : Production) : Production := { p with weight := p.weight.blank }

@[simp] theorem head_blank (p : Production) : p.blank.head = p.head := rfl

@[simp] theorem body_blank (p : Production) : p.blank.body = p.body := rfl

@[simp] theorem isZero_blank (p : Production) : p.blank.weight.isZero = p.weight.isZero := p.weight.isZero_blank

theorem head_eq (same : p.blank = q.blank) : p.head = q.head := @congrArg _ _ p.blank q.blank head same

theorem body_eq (same : p.blank = q.blank) : p.body = q.body := @congrArg _ _ p.blank q.blank body same

theorem checkProduction_blank (p : Production) : Edit.checkProduction p.blank = Edit.checkProduction p := by
  rw [Edit.checkProduction, Edit.checkProduction, show p.blank.weight.check = p.weight.check from p.weight.check_blank]
  rfl

/-- What comes out the same when the weights are blanked is the same of productions that are alike. -/
theorem blind {α : Type} (f : List Production → α) (blanked : ∀ ps, f (ps.map blank) = f ps)
    (same : ps.map blank = qs.map blank) : f ps = f qs := by
  rw [← blanked ps, same, blanked qs]

theorem map_blank_filter {keep : Production → Bool} (blanked : ∀ p, keep p.blank = keep p) (ps : List Production) :
    (ps.filter keep).map blank = (ps.map blank).filter keep := by
  rw [List.filter_map, show keep ∘ blank = keep from funext blanked]

theorem map_blank_modify (index : Nat) (body : Body) (ps : List Production) :
    (ps.modify index fun p => { p with body }).map blank = (ps.map blank).modify index fun p => { p with body } := by
  apply List.ext_getElem?
  intro place
  rw [List.getElem?_map, List.getElem?_modify, List.getElem?_modify, List.getElem?_map]
  cases ps[place]? with
  | none => rfl
  | some p =>
    by_cases here : index = place
    · simp [here, blank]
    · simp [here]

end Production

open Production

structure Alike (g h : Grammar) : Prop where
  kind : g.kind = h.kind
  start : g.start = h.start
  nonterminals : g.nonterminals = h.nonterminals
  terminals : g.terminals = h.terminals
  attributes : ∀ name, g.attributesOf? name = h.attributesOf? name
  productions : g.productions.map blank = h.productions.map blank

namespace Alike

variable {g h : Grammar}

theorem length (alike : Alike g h) : g.productions.length = h.productions.length :=
  blind List.length (fun _ => List.length_map _) alike.productions

theorem productionsOf (alike : Alike g h) (name : String) :
    (g.productionsOf name).map blank = (h.productionsOf name).map blank := by
  rw [Grammar.productionsOf, map_blank_filter (fun _ => rfl), alike.productions, ← map_blank_filter (fun _ => rfl)]
  rfl

theorem attributesOf (alike : Alike g h) (name : String) : g.attributesOf name = h.attributesOf name := by
  rw [Grammar.attributesOf, alike.attributes, ← Grammar.attributesOf]

theorem isEmpty (alike : Alike g h) : g.isEmpty = h.isEmpty :=
  blind List.isEmpty (fun _ => List.isEmpty_map) alike.productions

theorem size (alike : Alike g h) : g.size = h.size := by
  rw [Grammar.size, Grammar.size, alike.length, alike.nonterminals, alike.terminals]

theorem any_sameRule (alike : Alike g h) {p q : Production} (same : p.blank = q.blank) :
    g.productions.any (·.sameRule p) = h.productions.any (·.sameRule q) := by
  have rule : (fun r : Production => r.sameRule p) = (fun r : Production => r.sameRule q) := by
    funext r
    rw [sameRule, sameRule, head_eq same, body_eq same]
  rw [rule]
  exact blind (·.any (·.sameRule q)) (fun ps => by rw [List.any_map]; rfl) alike.productions

theorem usesSymbol (alike : Alike g h) : g.usesSymbol = h.usesSymbol := by
  funext symbol
  cases symbol with
  | terminal value =>
    exact blind (·.any fun p => p.body.contains (.terminal value)) (fun ps => by
      rw [List.any_map]; rfl) alike.productions
  | nonterminal value =>
    rw [Grammar.usesSymbol, Grammar.usesSymbol, alike.start]
    congr 1
    exact blind (·.any fun p => p.head == value || p.body.contains (.nonterminal value))
      (fun ps => by rw [List.any_map]; rfl) alike.productions
  | empty => rfl

theorem unusedSymbols (alike : Alike g h) : g.unusedSymbols = h.unusedSymbols := by
  rw [Grammar.unusedSymbols, Grammar.unusedSymbols, alike.usesSymbol, alike.nonterminals, alike.terminals]

theorem freshName (alike : Alike g h) (base : String) : g.freshName base = h.freshName base := by
  rw [Grammar.freshName, Grammar.freshName, alike.nonterminals]

theorem isHelper (alike : Alike g h) (name : String) (body : Body) :
    Pass.isHelper g name body = Pass.isHelper h name body := by
  apply blind (fun ps => Pass.isHelper { h with productions := ps } name body) _ alike.productions
  intro ps
  have listed : ({ h with productions := ps.map blank } : Grammar).productionsOf name =
      (({ h with productions := ps } : Grammar).productionsOf name).map blank :=
        (map_blank_filter (fun _ => rfl) ps).symm
  rw [Pass.isHelper, Pass.isHelper, listed]
  rcases ({ h with productions := ps } : Grammar).productionsOf name with _ | ⟨only, _ | ⟨second, rest⟩⟩
  · rfl
  · rfl
  · rfl

theorem nullable (alike : Alike g h) (known : List String) : Nullable.closure g known = Nullable.closure h known := by
  have found : Nullable.found g = Nullable.found h := by
    funext known
    rw [Nullable.found, Nullable.found, alike.nonterminals]
    refine List.filter_congr fun name _ => ?_
    exact blind (·.any fun p => p.body.all (Nullable.isNullable known)) (fun ps => by rw [List.any_map]; rfl)
      (alike.productionsOf name)
  rw [Nullable.closure, Nullable.closure, found, alike.nonterminals]

theorem reach {ps qs : List Production} (same : ps.map blank = qs.map blank) (name : String) :
    Units.reach ps name = Units.reach qs name := by
  have all : ps.filterMap unitTarget? = qs.filterMap unitTarget? :=
    blind (·.filterMap unitTarget?) (fun ps => by rw [List.filterMap_map]; rfl) same
  have each : Units.targetsOf ps = Units.targetsOf qs := by
    funext other
    refine blind (Units.targetsOf · other) (fun ps => ?_) same
    rw [Units.targetsOf, ← map_blank_filter (fun _ => rfl), List.filterMap_map]
    rfl
  rw [Units.reach, Units.reach, all, each]

theorem pairs (alike : Alike g h) {ps qs : List Production} (same : ps.map blank = qs.map blank) :
    Units.pairs g ps = Units.pairs h qs := by
  rw [Units.pairs, Units.pairs, alike.nonterminals]
  simp only [reach same]

theorem generating (alike : Alike g h) : Useful.generating g = Useful.generating h := by
  have heads : g.productions.map head = h.productions.map head :=
    blind (·.map head) (fun ps => List.map_map) alike.productions
  have step : (fun known => (g.productions.filter fun p => Useful.isGenerating known p.body).map head) =
      fun known => (h.productions.filter fun p => Useful.isGenerating known p.body).map head := by
    funext known
    refine blind (fun ps => (ps.filter fun p => Useful.isGenerating known p.body).map head) (fun ps =>
      ?_) alike.productions
    rw [← map_blank_filter (fun _ => rfl), List.map_map]
    rfl
  rw [Useful.generating, Useful.generating, heads, step]

theorem reachable (alike : Alike g h) : Useful.reachable g = Useful.reachable h := by
  have all : (g.productions.flatMap fun p => Useful.nonterminalsOf p.body) =
      h.productions.flatMap fun p => Useful.nonterminalsOf p.body :=
    blind (·.flatMap fun p => Useful.nonterminalsOf p.body) (fun ps => by rw [List.flatMap_map]; rfl) alike.productions
  have each : ∀ name, ((g.productionsOf name).flatMap fun p => Useful.nonterminalsOf p.body) =
      (h.productionsOf name).flatMap fun p => Useful.nonterminalsOf p.body := fun name =>
    blind (·.flatMap fun p => Useful.nonterminalsOf p.body) (fun ps => by rw [List.flatMap_map]; rfl)
      (alike.productionsOf name)
  rw [Useful.reachable, Useful.reachable, all, alike.start]
  simp only [each]

theorem longTerminals (alike : Alike g h) : Pass.longTerminals g.productions = Pass.longTerminals h.productions := by
  refine blind Pass.longTerminals (fun ps => ?_) alike.productions
  rw [Pass.longTerminals, ← map_blank_filter (fun _ => rfl), List.flatMap_map]
  rfl

end Alike

end ContextFree
