import Shiba.Main
import Shiba.Proofs.ArgumentPassing
import Shiba.Proofs.BoxOwnership
import Shiba.Proofs.BoxesInHand
import Shiba.Proofs.CallerIsolation
import Shiba.Proofs.Completion
import Shiba.Proofs.ComputingAssignment
import Shiba.Proofs.Concatenation
import Shiba.Proofs.DeepCopies
import Shiba.Proofs.DictionaryHistory
import Shiba.Proofs.EqualityRelation
import Shiba.Proofs.ErrorLocation
import Shiba.Proofs.FailedImport
import Shiba.Proofs.FailedLookahead
import Shiba.Proofs.HostArithmetic
import Shiba.Proofs.IntegerRange
import Shiba.Proofs.InternalFailure
import Shiba.Proofs.JumpPlacement
import Shiba.Proofs.KeyEquality
import Shiba.Proofs.LineJoining
import Shiba.Proofs.LinearSearch
import Shiba.Proofs.LookaheadCursor
import Shiba.Proofs.LocalVariables
import Shiba.Proofs.LoopTurns
import Shiba.Proofs.MemberNames
import Shiba.Proofs.MendableText
import Shiba.Proofs.ModuleOnce
import Shiba.Proofs.MoreFuel
import Shiba.Proofs.NestedConditionals
import Shiba.Proofs.NewlinesInBrackets
import Shiba.Proofs.OperandReading
import Shiba.Proofs.ParsingEnds
import Shiba.Proofs.RoundTrip.ReadBack
import Shiba.Proofs.ScopeDiscipline
import Shiba.Proofs.SealedModules
import Shiba.Proofs.SequenceFunctions
import Shiba.Proofs.SimultaneousAssignment
import Shiba.Proofs.StableBindings
import Shiba.Proofs.Standard.Builtins
import Shiba.Proofs.StoredKeys
import Shiba.Proofs.TokenTiling
import Shiba.Proofs.TracingEffect
import Shiba.Proofs.Transcript
import Shiba.Token.Lookahead
import Shiba.Token.Progress
import Shiba.Value.Data
