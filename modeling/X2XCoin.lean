import X2XCoin.Coins.AmountCodec
import X2XCoin.Coins.CacheRefinement
import X2XCoin.Consensus.StakeWeight
import X2XCoin.Validation.Maturity
import X2XCoin.Node.ChainWork
import X2XCoin.Node.Poisoning
import X2XCoin.Node.Reconsider
import X2XCoin.JavaWallet.Repository
import X2XCoin.Wallet.FeeLoop
import X2XCoin.Server.PartialFetch
import X2XCoin.Node.HeaderDifficulty
import X2XCoin.Wallet.StakeCache
import X2XCoin.Mempool.RemoveForReorg
import X2XCoin.Consensus.MerkleComputation
import X2XCoin.Primitives.MoneyStr
import X2XCoin.Address.CashAddrDecode
import X2XCoin.Wallet.KeyPool
import X2XCoin.Node.HeaderSpam
import X2XCoin.Validation.Issuance
import X2XCoin.Server.WindowScan
import X2XCoin.JavaWallet.HexUtils
import X2XCoin.JavaWallet.Dust
import X2XCoin.JavaWallet.Size
import X2XCoin.Coins.Record
import X2XCoin.Server.RateLimiter
import X2XCoin.Server.BalanceCache
import X2XCoin.Node.SkipList
import X2XCoin.Server.OutpointKeys
import X2XCoin.Chain.Locator
import X2XCoin.Net.RollingBloom
import X2XCoin.Net.OrphanPool
import X2XCoin.Script.ScriptNum
