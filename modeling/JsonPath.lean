import JsonPath.Main
import JsonPath.Session
import JsonPath.Place.Wrapped
import JsonPath.Proofs.Lexicon
import JsonPath.Proofs.Lexicon.Longest
import JsonPath.Proofs.Grammar
import JsonPath.Proofs.Grammar.Form
import JsonPath.Proofs.Spelling
import JsonPath.Proofs.Lookahead
import JsonPath.Proofs.Covers
import JsonPath.Proofs.Run
import JsonPath.Proofs.Recognition
import JsonPath.Proofs.Furthest
import JsonPath.Proofs.Rejection
import JsonPath.Proofs.Engine
import JsonPath.Proofs.Decoding
import JsonPath.Proofs.Lowering
import JsonPath.Proofs.RoundTrip
import JsonPath.Proofs.Order
import JsonPath.Proofs.Nesting
import JsonPath.Proofs.Concatenation
import JsonPath.Proofs.Frontier
import JsonPath.Proofs.Spacing
import JsonPath.Proofs.Ending
import JsonPath.Proofs.Regrouping
import JsonPath.Proofs.StandardInput
import JsonPath.Proofs.OneLine
import JsonPath.Proofs.Simulation
import JsonPath.Proofs.Scans
import JsonPath.Proofs.Literals
import JsonPath.Proofs.Decoding.Walk
import JsonPath.Proofs.Rewinding
import JsonPath.Proofs.Numerals
import JsonPath.Proofs.Writing
import JsonPath.Proofs.Reserved
import JsonPath.Proofs.Reserved.Value
import JsonPath.Proofs.Spans
import JsonPath.Proofs.Found
import JsonPath.Proofs.Progress
import JsonPath.Proofs.Lines
import JsonPath.Proofs.Faults
import JsonPath.Proofs.Remaining
