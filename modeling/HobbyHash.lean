import HobbyHash.BlockEncodings
import HobbyHash.BlockFilter
import HobbyHash.Chainstate.ActiveChain
import HobbyHash.Chainstate.Building
import HobbyHash.Chainstate.KnownInvalid
import HobbyHash.CheckQueue.Verdict
import HobbyHash.Compressor
import HobbyHash.HeadersSync.CommitmentBound
import HobbyHash.HeadersSync.Honest
import HobbyHash.KeyIo
import HobbyHash.MerkleBlock.Complete
import HobbyHash.Pow.Retarget
import HobbyHash.Pow.Work
import HobbyHash.Script.Interpreter
import HobbyHash.TransactionFormat
import HobbyHash.TxRequest.Requests
import HobbyHash.Validation.CoinbaseHeight
import HobbyHash.Validation.Recovery
import HobbyHash.Validation.ScriptCache
import HobbyHash.Validation.Supply
import HobbyHash.Versionbits.Ladder
import HobbyHash.Wallet.BranchAndBound
import HobbyHash.Wallet.CoinGrinderOptimal
import HobbyHash.Wallet.SpendFees
