import LarkX.Chain.Genesis
import LarkX.Market.Writes
import LarkX.Evaluate.Writes
import LarkX.State.Holdings
import LarkX.State.Layers
import LarkX.Evaluate.Claim
import LarkX.Evaluate.Conserve
import LarkX.ForMathlib.Till
import LarkX.State.Keyed
import LarkX.Chain.Steps
import LarkX.Chain.Writes
import LarkX.Chain.Fits
import LarkX.Chain.Origin
import LarkX.Chain.History
import LarkX.Chain.Headers
import LarkX.Evaluate.Request
import LarkX.State.Apply
import LarkX.State.Indexed
import LarkX.State.WellFormed
import LarkX.State.Undo
import LarkX.Evaluate.Signed
import LarkX.Chain.Extend
import LarkX.Chain.Signed
import LarkX.Chain.Clock
import LarkX.Evaluate.Margin
import LarkX.State.Votes
import LarkX.Evaluate.Kinds
import LarkX.Evaluate.Orders
import LarkX.Evaluate.Owners
import LarkX.Evaluate.Runs
import LarkX.Evaluate.Supply
import LarkX.Evaluate.Votes
import LarkX.Chain.Votes
import LarkX.Client.Delegate
import LarkX.Client.Reply
import LarkX.Client.Synopsis
import LarkX.Chain.Index
import LarkX.Chain.Known
import LarkX.Chain.Markets
import LarkX.Net.Node
import LarkX.Net.Steps
import LarkX.Net.Accepted
import LarkX.Net.Requests
import LarkX.Evaluate.Forward
import LarkX.Net.Processed
import LarkX.State.Applied
import LarkX.ForMathlib.Cursor
import LarkX.Market.Trades
import LarkX.Market.Books
import LarkX.Market.Rounds
import LarkX.Market.Progress
import LarkX.Market.Settlement
import LarkX.Market.Calls
import LarkX.Market.Completed
import LarkX.Market.Uncrossed
import LarkX.Market.Covers
import LarkX.State.Reckoning
import LarkX.Market.InHand
import LarkX.Market.Tally
import LarkX.Market.Conserved
import LarkX.Market.Backed
import LarkX.Market.Order
import LarkX.Market.Feeds
import LarkX.ForMathlib.Digits
import LarkX.Types.PriceText
import LarkX.State.AmountText
import LarkX.Evaluate.Yield
import LarkX.Market.Credits
import LarkX.Market.Failed
import LarkX.State.Stores
import LarkX.Chain.Delegates
import LarkX.Chain.Schedule
import LarkX.ForMathlib.Sieve
import LarkX.Chain.Pending
import LarkX.Evaluate.Retraction
import LarkX.Db.LevelMap
import LarkX.Db.CachedMap
import LarkX.Evaluate.NameGrammar
import LarkX.ForMathlib.Base58
import LarkX.ForMathlib.Bytes
import LarkX.Types.AddressText
import LarkX.Net.Framing
import LarkX.Net.FastSync
import LarkX.Net.PeerDatabase
import LarkX.Net.PeerMirror
import LarkX.Wallet.Builder
import LarkX.Wallet.Fee
import LarkX.Wallet.Finalize
import LarkX.Wallet.KeyStore
import LarkX.Wallet.Password
import LarkX.ForMathlib.Pieces
import LarkX.Market.OrderHistory
import LarkX.Market.HistoryPages
import LarkX.ForMathlib.Exchange
import LarkX.Market.Conversion
import LarkX.Evaluate.Running
import LarkX.Evaluate.BalanceCalls
import LarkX.Evaluate.Exact
import LarkX.Chain.Restart
import LarkX.Chain.UndoExact
import LarkX.Chain.Accounts
import LarkX.Chain.Production
import LarkX.Chain.Accounting
import LarkX.Chain.Forks
import LarkX.Net.FetchOrder
import LarkX.Net.Handshake
import LarkX.Net.SecureSocket
import LarkX.Chain.Keys
import LarkX.Client.Liveness
