import Scripting.CommandLine.Execute
import Scripting.Main
import Scripting.Proofs.Calls.Runs
import Scripting.Proofs.Confinement.Programs
import Scripting.Proofs.Control.Runs
import Scripting.Proofs.Environments.Refinement
import Scripting.Proofs.ForLoop.Loops
import Scripting.Proofs.Grammar.Programs
import Scripting.Proofs.Missing.Programs
import Scripting.Proofs.Output.Runs
import Scripting.Proofs.Places.Lexical
import Scripting.Proofs.Places.Undefined
import Scripting.Proofs.Prediction.Programs
import Scripting.Proofs.Quotes.Sessions
import Scripting.Proofs.Recovery.Blocks
import Scripting.Proofs.Rename.Runs
import Scripting.Proofs.Spans.Programs
import Scripting.Proofs.Termination.Sessions
import Scripting.Proofs.Token.Blanking
import Scripting.Proofs.Token.Tiles
import Scripting.Proofs.Values.Floats
import Scripting.Proofs.Values.Operators
