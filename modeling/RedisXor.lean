import RedisXor.Proofs.BucketSets
import RedisXor.Proofs.Core
import RedisXor.Proofs.Dump
import RedisXor.Proofs.Fifo
import RedisXor.Proofs.Footprint
import RedisXor.Proofs.Geometry
import RedisXor.Proofs.HeapServer
import RedisXor.Proofs.Load
import RedisXor.Proofs.Mixer
import RedisXor.Proofs.Relabel
import RedisXor.Proofs.Rounds
import RedisXor.Proofs.Server
import RedisXor.Proofs.Spread
import RedisXor.Proofs.Unrecorded
import RedisXor.Proofs.Widths
