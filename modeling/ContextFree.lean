import ContextFree.Main
import ContextFree.Command.Directory
import ContextFree.Proofs.AttributeReferences
import ContextFree.Proofs.Comparison
import ContextFree.Proofs.Continuation
import ContextFree.Proofs.ConvertedText
import ContextFree.Proofs.Diagnostics
import ContextFree.Proofs.DropPatterns
import ContextFree.Proofs.Edit.Leftovers
import ContextFree.Proofs.EmptySentence
import ContextFree.Proofs.Failures
import ContextFree.Proofs.HelperWeights
import ContextFree.Proofs.History
import ContextFree.Proofs.NameSearch
import ContextFree.Proofs.Reading.Files
import ContextFree.Proofs.Reading.LineOrder
import ContextFree.Proofs.Reading.Problems
import ContextFree.Proofs.Reading.Scanning
import ContextFree.Proofs.Reading.TextOrder
import ContextFree.Proofs.Reconversion
import ContextFree.Proofs.Renaming
import ContextFree.Proofs.SplitRefusal
import ContextFree.Proofs.UnitChains
import ContextFree.Proofs.UnitPairs
import ContextFree.Proofs.UsefulPart
import ContextFree.Proofs.WeightBlindness
import ContextFree.Proofs.WeightText
