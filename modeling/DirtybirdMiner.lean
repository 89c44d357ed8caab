import DirtybirdMiner.Astro.Correct
import DirtybirdMiner.Miner.Nonces
import DirtybirdMiner.Bn256.Prime
import DirtybirdMiner.Lib.Words
import DirtybirdMiner.Ws.Frames
import DirtybirdMiner.Ws.Reassembly
import DirtybirdMiner.Args.Arguments
import DirtybirdMiner.Args.Canonical
import DirtybirdMiner.Block.Blocks
import DirtybirdMiner.Crypto.Hashing
import DirtybirdMiner.Crypto.InnerProducts
import DirtybirdMiner.Args.HalfFloats
import DirtybirdMiner.Args.Rfc3339
import DirtybirdMiner.Astro.LargePages
import DirtybirdMiner.Astro.Markers
import DirtybirdMiner.Astro.Sha256x2
import DirtybirdMiner.Block.Addresses
import DirtybirdMiner.Block.Consensus
import DirtybirdMiner.Block.PayloadProofs
import DirtybirdMiner.Block.Varints
import DirtybirdMiner.Crypto.BasePoint
import DirtybirdMiner.Crypto.Completeness
import DirtybirdMiner.Crypto.Decoder
import DirtybirdMiner.Crypto.Transforms
import DirtybirdMiner.Lib.Doubling
import DirtybirdMiner.Miner.WallClock
import DirtybirdMiner.Sais.PrefixDoubling
import DirtybirdMiner.V114.ColumnRuns
import DirtybirdMiner.Miner.Session
import DirtybirdMiner.Block.Identity
import DirtybirdMiner.Block.Registrations
import DirtybirdMiner.Lib.RingBuffers
import DirtybirdMiner.Miner.Hashrate
import DirtybirdMiner.Pow.Pow16
