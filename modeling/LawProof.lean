import LawProof.Main
import LawProof.Proofs.Occurrences
import LawProof.Proofs.Tape
import LawProof.Proofs.Counting
import LawProof.Proofs.Tracking
import LawProof.Proofs.Consistency
import LawProof.Proofs.Edits
import LawProof.Proofs.Runs
import LawProof.Proofs.Meaning
import LawProof.Proofs.Candidates
import LawProof.Proofs.Scanning
import LawProof.Proofs.Minimality
import LawProof.Proofs.Workers
import LawProof.Proofs.Schedules
import LawProof.Proofs.Agreement
import LawProof.Proofs.Equations
import LawProof.Proofs.Access
import LawProof.Proofs.ProofText
import LawProof.Proofs.Soundness
import LawProof.Proofs.Readings
import LawProof.Proofs.Completeness
import LawProof.Proofs.Inlining
import LawProof.Proofs.Checking
import LawProof.Proofs.Listing
import LawProof.Proofs.Coverage
import LawProof.Proofs.FormulaText
import LawProof.Proofs.Counters
import LawProof.Proofs.Holdouts
import LawProof.Proofs.Room
import LawProof.Proofs.RoundTrips
import LawProof.Proofs.Atomicity
import LawProof.Proofs.Ledgers
import LawProof.Proofs.Reports
import LawProof.Proofs.Accounts
import LawProof.Proofs.Positions
import LawProof.Proofs.Clauses
import LawProof.Proofs.Translations
import LawProof.Proofs.Duality
import LawProof.Proofs.Renaming
import LawProof.Proofs.CheckedCounts
import LawProof.Proofs.CountGrowth
import LawProof.Proofs.Bookkeeping
import LawProof.Proofs.InputWords
import LawProof.Proofs.Cascades
import LawProof.Proofs.ClauseText
import LawProof.Proofs.Recounts
import LawProof.Proofs.Discipline
import LawProof.Proofs.Words
