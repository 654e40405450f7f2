import KeyhiveEval.Lib.KeyFrontier
import KeyhiveEval.Lib.Layering
import KeyhiveEval.Lib.OrderedSets
import KeyhiveEval.Lib.PerfectTree
import KeyhiveEval.Lib.Stateful
import KeyhiveEval.Lib.Loops
import KeyhiveEval.Lib.Unfolding
import KeyhiveEval.Beekem.Basic
import KeyhiveEval.Beekem.TreeMath
import KeyhiveEval.Beekem.Keys
import KeyhiveEval.Beekem.Tree
import KeyhiveEval.Beekem.TopSort
import KeyhiveEval.Beekem.Popping
import KeyhiveEval.Beekem.Operation
import KeyhiveEval.Beekem.Cgka
import KeyhiveEval.Beekem.World
import KeyhiveEval.Beekem.TreeWalk
import KeyhiveEval.Beekem.Navigation
import KeyhiveEval.Beekem.TreeShape
import KeyhiveEval.Beekem.Membership
import KeyhiveEval.Beekem.KeyPaths
import KeyhiveEval.Beekem.Calls
import KeyhiveEval.Beekem.Invariant
import KeyhiveEval.Beekem.Sample
import KeyhiveEval.Beekem.Bijection
import KeyhiveEval.Beekem.Containment
import KeyhiveEval.Beekem.Epochs
import KeyhiveEval.Beekem.Steps
import KeyhiveEval.Beekem.History
import KeyhiveEval.Beekem.Resolution
import KeyhiveEval.Beekem.EncryptedPaths
import KeyhiveEval.Beekem.Replay
import KeyhiveEval.Beekem.Incremental
import KeyhiveEval.Beekem.FailedCalls
import KeyhiveEval.Beekem.GraphHeads
import KeyhiveEval.Beekem.EpochOrder
import KeyhiveEval.Beekem.FreshKeys
import KeyhiveEval.Beekem.ConcurrentPaths
import KeyhiveEval.Beekem.RootKeys
import KeyhiveEval.Beekem.Covering
import KeyhiveEval.Core.Delegation
import KeyhiveEval.Core.GroupState
import KeyhiveEval.Core.ReverseTopsort
import KeyhiveEval.Core.Group
import KeyhiveEval.Core.GroupSample
import KeyhiveEval.Core.Heads
import KeyhiveEval.Core.Rebuilding
import KeyhiveEval.Core.Authority
import KeyhiveEval.Core.Exploring
import KeyhiveEval.Core.Convergence
import KeyhiveEval.Core.Draining
import KeyhiveEval.Core.Linearisation
import KeyhiveEval.Core.Seniority
import KeyhiveEval.Core.ProofChains
import KeyhiveEval.Core.RevokeMember
import KeyhiveEval.Core.RevokeSteps
import KeyhiveEval.Core.RevokeErrors
import KeyhiveEval.Core.Support
import KeyhiveEval.Core.Dangling
import KeyhiveEval.Core.Retention
import KeyhiveEval.Core.CiphertextStore
import KeyhiveEval.Core.CausalDecryption
import KeyhiveEval.Core.DocumentDecryption
import KeyhiveEval.Core.Invitations
import KeyhiveEval.Core.KeyOps
import KeyhiveEval.Core.Prekeys
import KeyhiveEval.Core.PickPrekey
import KeyhiveEval.Core.Keyhive
import KeyhiveEval.Core.PrekeyOps
import KeyhiveEval.Dcgka.AckOrderer
import KeyhiveEval.Dcgka.Delivery
import KeyhiveEval.Dcgka.StrongRemoveDgm
import KeyhiveEval.Dcgka.FullDcgka
import KeyhiveEval.Dcgka.Secrets
import KeyhiveEval.Dcgka.Puncturing
import KeyhiveEval.Dcgka.ModularDsgm
import KeyhiveEval.Dcgka.TwoParty
import KeyhiveEval.Dcgka.Rejection
import KeyhiveEval.Mls.PastSecrets
import KeyhiveEval.Mls.SenderRatchet
import KeyhiveEval.Mls.DecryptionWindow
import KeyhiveEval.Mls.TreeMath
import KeyhiveEval.Mls.SecretTree
import KeyhiveEval.Mls.KeyAgreement
import KeyhiveEval.Mls.Pprf
import KeyhiveEval.Mls.Proposals
