import LineCalc.Main
import LineCalc.Proofs.Assignments
import LineCalc.Proofs.Evaluation.Exact
import LineCalc.Proofs.Evaluation.Nesting
import LineCalc.Proofs.Evaluation.Storing
import LineCalc.Proofs.Evaluation.Value
import LineCalc.Proofs.Reading.Literals
import LineCalc.Proofs.Reading.OnDemand
import LineCalc.Proofs.Requests.Contract
import LineCalc.Proofs.Requests.LineByLine
import LineCalc.Proofs.Requests.Termination
import LineCalc.Proofs.Safety
import LineCalc.Proofs.Sentences
import LineCalc.Proofs.Session.Append
import LineCalc.Proofs.Transcript.Blanked
import LineCalc.Proofs.Transcript.KeepGoing
import LineCalc.Proofs.Transcript.Kinds
import LineCalc.Proofs.Transcript.Names
import LineCalc.Proofs.Transcript.StandIn
import LineCalc.Proofs.Reading.Words
import LineCalc.Proofs.Transcript.Slots
import LineCalc.Proofs.Transcript.Reserved
import LineCalc.Proofs.Evaluation.Likeness
import LineCalc.Proofs.Session.Likeness
import LineCalc.Proofs.Reading.LineFeeds
import LineCalc.Proofs.Transcript.LineFeeds
import LineCalc.Proofs.Reading.Spread
import LineCalc.Proofs.Transcript.Spread
import LineCalc.Proofs.Requests.Recovering
import LineCalc.Proofs.Transcript.Rendering
import LineCalc.Proofs.Transcript.ReadBack
import LineCalc.Proofs.Transcript.Uncommented
import LineCalc.Proofs.Reading.Walks
