import Reckoner.Main
import Reckoner.Session
import Reckoner.Trace
import Reckoner.Proofs.Infix
import Reckoner.Proofs.Conversion
import Reckoner.Proofs.Evaluation
import Reckoner.Proofs.Acceptance
import Reckoner.Proofs.Replies
import Reckoner.Proofs.Writing
import Reckoner.Proofs.Variables
import Reckoner.Proofs.Recency
import Reckoner.Proofs.Substitution
import Reckoner.Proofs.Matching
import Reckoner.Proofs.Groups
import Reckoner.Proofs.Supply
import Reckoner.Proofs.Conservation
import Reckoner.Proofs.Accounts
import Reckoner.Proofs.Transition
import Reckoner.Proofs.Factors
import Reckoner.Proofs.RoundTrip
import Reckoner.Proofs.TokenTexts
import Reckoner.Proofs.Questions
import Reckoner.Proofs.Layers
