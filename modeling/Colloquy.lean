import Colloquy.Json.Exchange
import Colloquy.Main
import Colloquy.Proofs.Answered
import Colloquy.Proofs.Apart
import Colloquy.Proofs.Chronicle
import Colloquy.Proofs.Commons
import Colloquy.Proofs.Cycles
import Colloquy.Proofs.Decided
import Colloquy.Proofs.Defects
import Colloquy.Proofs.Driven
import Colloquy.Proofs.Dropped
import Colloquy.Proofs.Exported
import Colloquy.Proofs.Findings
import Colloquy.Proofs.Listed
import Colloquy.Proofs.Once
import Colloquy.Proofs.PathLaws
import Colloquy.Proofs.Phases
import Colloquy.Proofs.Phrasings
import Colloquy.Proofs.Reached
import Colloquy.Proofs.Reduced
import Colloquy.Proofs.Refused
import Colloquy.Proofs.Relations
import Colloquy.Proofs.Replaced
import Colloquy.Proofs.Restored
import Colloquy.Proofs.Resume
import Colloquy.Proofs.Serial
import Colloquy.Proofs.Signed
import Colloquy.Proofs.Spoken
import Colloquy.Proofs.Stamps
import Colloquy.Proofs.Totals
import Colloquy.Proofs.Unread
import Colloquy.Proofs.Verbs
import Colloquy.Proofs.Whereabouts
import Colloquy.Script.Given
import Colloquy.Service
import Colloquy.Session.Saved
import Colloquy.Template
import Colloquy.Validation
