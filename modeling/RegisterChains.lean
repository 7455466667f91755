import RegisterChains.Chain.Listing
import RegisterChains.Interchange.Formats
import RegisterChains.Overrides
import RegisterChains.Proofs.Program.Freshness
import RegisterChains.Proofs.Stability
import RegisterChains.Proofs.Preservation
import RegisterChains.Proofs.Repair.Reusing
import RegisterChains.Proofs.Breaches
import RegisterChains.Proofs.Chain.Concatenation
import RegisterChains.Proofs.Chain.Exactness
import RegisterChains.Proofs.Seeding.Reseeding
import RegisterChains.Proofs.PlainLists
import RegisterChains.Proofs.Repair.Progress
import RegisterChains.Proofs.Recycling
