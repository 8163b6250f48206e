import QueryFilter.Text.Blank
import QueryFilter.Operation
import QueryFilter.Condition
import QueryFilter.Binding.Token
import QueryFilter.Binding.Lexeme
import QueryFilter.Binding.Error
import QueryFilter.Binding.Grammar
import QueryFilter.Binding.State
import QueryFilter.Binding.Parser
import QueryFilter.Order
import QueryFilter.Key
import QueryFilter.Error
import QueryFilter.Declarations
import QueryFilter.Policy
import QueryFilter.Json.Quoted
import QueryFilter.Json.Value
import QueryFilter.Json.Encode
import QueryFilter.Text.Split
import QueryFilter.Text.Lines
import QueryFilter.Command.Failure
import QueryFilter.Command.Check
import QueryFilter.Command.Topic
import QueryFilter.Command.Line
import QueryFilter.Command.Request
import QueryFilter.Command.Run
import QueryFilter.Main
import QueryFilter.Proofs.Binding.Transition
import QueryFilter.Proofs.Binding.Viable
import QueryFilter.Proofs.Binding.Acceptance
import QueryFilter.Proofs.Binding.Layout
import QueryFilter.Proofs.Binding.Refusal
import QueryFilter.Proofs.Binding.RoundTrip
import QueryFilter.Proofs.Declarations.Resolution
import QueryFilter.Proofs.Declarations.Filling
import QueryFilter.Proofs.Declarations.Updates
import QueryFilter.Proofs.Policy.Outcome
import QueryFilter.Proofs.Key.Format
import QueryFilter.Proofs.Policy.Explicit
import QueryFilter.Proofs.Binding.Descent
import QueryFilter.Proofs.Binding.Unfinished
import QueryFilter.Proofs.Binding.Calls
import QueryFilter.Proofs.Binding.Exhaustion
import QueryFilter.Proofs.Binding.Activations
import QueryFilter.Proofs.Text.ByteOrder
import QueryFilter.Proofs.Declarations.History
import QueryFilter.Proofs.Policy.Slots
import QueryFilter.Proofs.Policy.Adjustments
import QueryFilter.Proofs.Json.Grammar
import QueryFilter.Proofs.Json.Reading
import QueryFilter.Proofs.Json.Recovery
import QueryFilter.Proofs.Command.Agreement
import QueryFilter.Proofs.Binding.Excess
import QueryFilter.Proofs.Declarations.Joining
import QueryFilter.Proofs.Binding.Blanks
import QueryFilter.Proofs.Binding.Composition
import QueryFilter.Proofs.Text.Trimming
import QueryFilter.Proofs.Order.Shapes
import QueryFilter.Proofs.Text.Lines
import QueryFilter.Proofs.Command.Input
import QueryFilter.Proofs.Condition.Places
