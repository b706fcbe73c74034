import SsaForm.Workbench.Tools
import SsaForm.Proofs.PhiIntegrity
import SsaForm.Proofs.PhiLists
import SsaForm.Proofs.Soundness
import SsaForm.Proofs.Rechecking
import SsaForm.Proofs.Persistence
import SsaForm.Proofs.LateRenaming
import SsaForm.Proofs.Commuting
import SsaForm.Proofs.Growth
import SsaForm.Proofs.RoundTrips
import SsaForm.Proofs.Freeing
import SsaForm.Proofs.Replacement
import SsaForm.Proofs.NamedHolders
import SsaForm.Proofs.TableHistories
