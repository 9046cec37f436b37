import Dsl41.StateMachine.Answered
import Dsl41.StateMachine.Completions
import Dsl41.Infra.Effect
import Dsl41.Store.Rows
import Dsl41.Store.Assembly
import Dsl41.Infra.Snapshot
import Dsl41.Store.Verbs
import Dsl41.Store.Transaction
import Dsl41.Infra.Text
import Dsl41.Jil.Syntax
import Dsl41.Jil.Value
import Dsl41.Jil.Render
import Dsl41.Jil.Scanner
import Dsl41.Jil.Regions
import Dsl41.Jil.Grammar
import Dsl41.Jil.Elements
import Dsl41.Jil.Preserve
import Dsl41.Jil.RoundTrip
import Dsl41.Placeholders.Properties
import Dsl41.Placeholders.Meaning
import Dsl41.Placeholders.Passes
import Dsl41.Placeholders.Order
import Dsl41.Jil.Trim
import Dsl41.Jil.Canonical
import Dsl41.Jil.CanonicalAttr
import Dsl41.Infra.Json.Grammar
import Dsl41.Canon.Encoding
import Dsl41.Canon.RoundTrip
import Dsl41.Jil.Reparse
import Dsl41.Oracle.Swap
import Dsl41.Oracle.Projection
import Dsl41.StateMachine.Ancestry
import Dsl41.StateMachine.Deferrals
import Dsl41.StateMachine.Calls
import Dsl41.Store.Writes
import Dsl41.Runner.StoresAgree
import Dsl41.Runner.Resume
import Dsl41.Runner.Backfill
import Dsl41.Runner.Streams
import Dsl41.Minify.Faithful
import Dsl41.Store.Settlement
import Dsl41.Store.Removal
import Dsl41.Nav.Reach
import Dsl41.Timing.Serves
import Dsl41.Admission.Runs
import Dsl41.Watch.Runs
import Dsl41.Conditions.Canonical
import Dsl41.Derive.Chains
import Dsl41.Conditions.RoundTrip
import Dsl41.Timing.Windows
import Dsl41.Timing.StartTimes
import Dsl41.Timing.Occurrence
import Dsl41.Reload.Application
import Dsl41.Autocal.Bound
import Dsl41.Attempts.Calls
