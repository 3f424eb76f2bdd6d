import Libbash.Arith.Operands
import Libbash.Core.DynamicScope
import Libbash.Walker.LoopControl
import Libbash.Walker.Truth
import Libbash.Interp.Functions
import Libbash.Interp.Calls
import Libbash.Interp.Assignments
import Libbash.Interp.SetTests
import Libbash.Interp.RoundTrip
import Libbash.Interp.Forwarding
import Libbash.Interp.WordArguments
import Libbash.Interp.Conditional
import Libbash.Interp.Expansions
import Libbash.Interp.SetOptions
import Libbash.Interp.Statuses
import Libbash.Interp.Checks
import Libbash.Interp.Conditions
import Libbash.Interp.Nounset
import Libbash.Interp.Positional
import Libbash.Interp.Substrings
import Libbash.Arith.Exponent
import Libbash.Arith.Divisions
import Libbash.Interp.Subarrays
import Libbash.Parser.Grouping
import Libbash.Arith.StoreLoad
import Libbash.Arith.Compound
import Libbash.Interp.DefaultWords
import Libbash.Interp.Echo
import Libbash.Interp.Splitting
import Libbash.Interp.Braces
import Libbash.Interp.Narrowing
import Libbash.Interp.Appends
import Libbash.Interp.Suffixes
import Libbash.Interp.Prefixes
import Libbash.Interp.Substitutions
import Libbash.Interp.Globs
import Libbash.Interp.Backquotes
import Libbash.Interp.EscapeGrammar
import Libbash.Interp.Shifts
import Libbash.Interp.Reads
import Libbash.Interp.LogicalLines
import Libbash.Interp.Printf
import Libbash.Interp.SingleQuotes
import Libbash.Interp.AssignmentPrefixes
import Libbash.Interp.LocalDeclarations
import Libbash.Interp.Sources
import Libbash.Walker.Skips
import Libbash.Utils.Metadata
import Libbash.Interp.Indirection
import Libbash.Parser.Substitution
import Libbash.Parser.HereDocument
import Libbash.Interp.Inherited
import Libbash.Interp.EclassContext
import Libbash.Interp.EclassGlobals
import Libbash.Interp.Streams
import Libbash.Walker.Scripts
