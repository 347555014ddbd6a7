import CryptoPlaypen.Objects.Method
import CryptoPlaypen.Buffer.NodeBuffer
import CryptoPlaypen.Buffer.HexStrings
import CryptoPlaypen.Buffer.SequentialReads
import CryptoPlaypen.Buffer.SequentialWrites
import CryptoPlaypen.Lightning.NoiseHandshake
import CryptoPlaypen.Lightning.NoiseCrossing
import CryptoPlaypen.Lightning.PeerChunking
import CryptoPlaypen.Lightning.NoiseKeyUses
import CryptoPlaypen.Lightning.NoiseAtomicity
import CryptoPlaypen.Lightning.GossipRoundTrip
import CryptoPlaypen.Lightning.ControlRoundTrip
import CryptoPlaypen.Bitcoin.LegacySighash
import CryptoPlaypen.Bitcoin.SegwitRoundTrip
import CryptoPlaypen.Bitcoin.WitnessSighash
import CryptoPlaypen.Bitcoin.WholeBlocks
import CryptoPlaypen.Bitcoin.SigningOrder
import CryptoPlaypen.Bitcoin.InPlaceSigning
import CryptoPlaypen.Blockmode.CbcRoundTrip
import CryptoPlaypen.Blockmode.CtrRoundTrip
import CryptoPlaypen.PaddingOracle.Recovery
import CryptoPlaypen.Primes.RsaBreak
import CryptoPlaypen.Onion.Ex1
import CryptoPlaypen.Onion.Ex2
import CryptoPlaypen.Lightning.FieldLists
import CryptoPlaypen.Lightning.FieldLengths
import CryptoPlaypen.Lightning.PongReplies
import CryptoPlaypen.Lightning.SendingSchedule
import CryptoPlaypen.Bitcoin.MerkleTree
import CryptoPlaypen.Bitcoin.TransactionSizes
import CryptoPlaypen.Bitcoin.ScriptParser
import CryptoPlaypen.Bitcoin.DerSignatures
import CryptoPlaypen.Bitcoin.CursorRuns
import CryptoPlaypen.Blockmode.SliceBounds
import CryptoPlaypen.Blockmode.CallerMemory
import CryptoPlaypen.Blockmode.HostilePadding
import CryptoPlaypen.Hmac.ChunkChain
import CryptoPlaypen.Hmac.FileBinding
import CryptoPlaypen.Hmac.InputIntact
import CryptoPlaypen.Primes.PaddedMessage
import CryptoPlaypen.Primes.SkewFactors
import CryptoPlaypen.Primes.FermatSearch
import CryptoPlaypen.Dlog.PlainTable
import CryptoPlaypen.General.StreamServer
import CryptoPlaypen.Cribdrag.SliceDragging
import CryptoPlaypen.Lightning.Wallet
import CryptoPlaypen.Objects.Triples
import CryptoPlaypen.Lightning.PeerRuns
import CryptoPlaypen.Bitcoin.SignedWitnesses
import CryptoPlaypen.Lightning.ReceivingOrder
import CryptoPlaypen.Blockmode.Injection
import CryptoPlaypen.Blockmode.Commands
import CryptoPlaypen.Buffer.PrefixReads
import CryptoPlaypen.Bitcoin.BlockHashes
import CryptoPlaypen.Cribdrag.KeyMode
import CryptoPlaypen.Onion.AuthenticLayers
