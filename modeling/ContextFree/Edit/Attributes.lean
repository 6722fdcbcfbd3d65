import ContextFree.Edit.Basic

namespace ContextFree.Edit

def checkAttribute (name : String) (letter : Char) : Edit Attributes := do
  let g ← grammar
  if name ∈ g.nonterminals then
    require (Weight.checkLetter letter)
    return g.attributesOf name
  else refuse (.undefined name)

def setAttributes (name : String) (value : Attributes) : Edit Unit :=
  change fun g => { g with attributes := g.attributes.set name value }

def addInherited (name : String) (letter : Char) : Edit Unit := do
  let attributes ← checkAttribute name letter
  if letter ∈ attributes.synthesized then refuse (.clash letter name .synthesized)
  else setAttributes name { attributes with inherited := attributes.inherited.insert letter }

def addSynthesized (name : String) (letter : Char) : Edit Unit := do
  let attributes ← checkAttribute name letter
  if letter ∈ attributes.inherited then refuse (.clash letter name .inherited)
  else setAttributes name { attributes with synthesized := attributes.synthesized.insert letter }

/-- Letter by letter, the inherited ones first. -/
def mergeAttributes (name : String) (source : Attributes) : Edit Unit := do
  source.inherited.toList.forM (addInherited name)
  source.synthesized.toList.forM (addSynthesized name)

end ContextFree.Edit
