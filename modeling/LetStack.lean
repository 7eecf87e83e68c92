import LetStack.CommandLine.Run
import LetStack.Main
import LetStack.Proofs.AccessLinks
import LetStack.Proofs.Activation
import LetStack.Proofs.Blocks
import LetStack.Proofs.CallFree
import LetStack.Proofs.Canonical
import LetStack.Proofs.Characters
import LetStack.Proofs.Complaints
import LetStack.Proofs.Completion
import LetStack.Proofs.Continuation
import LetStack.Proofs.Conversion
import LetStack.Proofs.Correctness
import LetStack.Proofs.Episodes
import LetStack.Proofs.FirstFault
import LetStack.Proofs.Grammar
import LetStack.Proofs.Image
import LetStack.Proofs.JsonLines
import LetStack.Proofs.JsonTokens
import LetStack.Proofs.JsonTrip
import LetStack.Proofs.Labels
import LetStack.Proofs.Machine
import LetStack.Proofs.Nearest
import LetStack.Proofs.Nodes
import LetStack.Proofs.Numerals
import LetStack.Proofs.Observation
import LetStack.Proofs.Phrases
import LetStack.Proofs.Plain
import LetStack.Proofs.Pool
import LetStack.Proofs.Reading
import LetStack.Proofs.RoundTrip
import LetStack.Proofs.Rounding
import LetStack.Proofs.Semantics
import LetStack.Proofs.Simulation
import LetStack.Proofs.Spelling
import LetStack.Proofs.SplitTree
import LetStack.Proofs.TextTrip
import LetStack.Proofs.Traversal
import LetStack.Proofs.WireTrip
import LetStack.Render
import LetStack.Tree.Walk
import LetStack.Proofs.Contributions
import LetStack.Proofs.Listing
import LetStack.Proofs.Display
import LetStack.Proofs.Generator
import LetStack.Proofs.Outline
import LetStack.Proofs.Log
import LetStack.Proofs.Brackets
import LetStack.Proofs.Unresolved
import LetStack.Proofs.Messages
import LetStack.Proofs.Places
import LetStack.Proofs.Unread
import LetStack.Proofs.Renumbering
import LetStack.Proofs.Names
import LetStack.Proofs.Files
import LetStack.Proofs.Delivery
