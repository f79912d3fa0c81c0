import Okchain.Chain.TxLinear
import Okchain.Chain.Content
import Okchain.Consensus.DsComplete
import Okchain.Consensus.Succession
import Okchain.Txpool.Index
import Okchain.Txpool.Reported
import Okchain.Consensus.LeadFresh
import Okchain.Consensus.Returning
import Okchain.State.Dirty
import Okchain.Vm.Accrual
import Okchain.Core.Gas
import Okchain.Consensus.Assembly
import Okchain.Consensus.GasLimit
import Okchain.Consensus.MerkleRoot
import Okchain.Chain.Meaning
import Okchain.Server.TxValidation
import Okchain.Consensus.CoinbaseCache
import Okchain.Consensus.RefusedBlock
import Okchain.Gossip.Payloads
import Okchain.Gossip.MsgStore
import Okchain.Trie.Trie
import Okchain.Consensus.Agreement
import Okchain.Chain.Ancestor
import Okchain.Consensus.Ranking
import Okchain.Crypto.Schnorr
import Okchain.Vrf.Sortition
