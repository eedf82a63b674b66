import Phrasebook.Address
import Phrasebook.Book.Session
import Phrasebook.CommandLine.Run
import Phrasebook.Desk
import Phrasebook.Main
import Phrasebook.Proofs.Book.History
import Phrasebook.Proofs.Book.Memory
import Phrasebook.Proofs.Contract
import Phrasebook.Proofs.Template.Grammar
import Phrasebook.Proofs.Tree.Overlay
import Phrasebook.Proofs.Tree.Rebuild
import Phrasebook.Tree.Assemble
import Phrasebook.Proofs.Book.Answering
import Phrasebook.Proofs.Book.Fallback
import Phrasebook.Proofs.Book.Stores
import Phrasebook.Proofs.Plural.Partition
import Phrasebook.Proofs.Template.Reading
import Phrasebook.Proofs.Book.Bulk
import Phrasebook.Proofs.Scope.Prefix
import Phrasebook.Proofs.Scope.Nesting
import Phrasebook.Proofs.Book.Recall
import Phrasebook.Proofs.Book.Interrupted
import Phrasebook.Proofs.Refusal
import Phrasebook.Proofs.Reordering
import Phrasebook.Proofs.Desk
import Phrasebook.Proofs.Book.Remembering
import Phrasebook.Proofs.Book.Representative
import Phrasebook.Proofs.Book.Identity
import Phrasebook.Proofs.CommandLine.Report
import Phrasebook.Proofs.CommandLine.Ending
import Phrasebook.Proofs.Scope.Keys
import Phrasebook.Proofs.Template.Selecting
import Phrasebook.Proofs.Tree.Layers
import Phrasebook.Proofs.Tree.Assembled
import Phrasebook.Proofs.Book.Variants
import Phrasebook.Proofs.Findings
import Phrasebook.Proofs.Tree.Conflicts
import Phrasebook.Proofs.Value.Denotation
import Phrasebook.Proofs.Tree.Again
import Phrasebook.Proofs.Book.Reloading
import Phrasebook.Proofs.Book.Commuting
import Phrasebook.Proofs.Address.Slashes
