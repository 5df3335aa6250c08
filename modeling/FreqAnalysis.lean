import FreqAnalysis.Base.Bytes
import FreqAnalysis.Base.Text
import FreqAnalysis.Base.CText
import FreqAnalysis.Base.Lists
import FreqAnalysis.Base.SortedMap
import FreqAnalysis.Base.LinkedList
import FreqAnalysis.Base.Tally
import FreqAnalysis.Base.Heap
import FreqAnalysis.Base.TopK
import FreqAnalysis.Base.Ranking
import FreqAnalysis.Base.Recency
import FreqAnalysis.Base.Cut
import FreqAnalysis.Fingerprint
import FreqAnalysis.TraceFormat
import FreqAnalysis.Ddfs.Bloom
import FreqAnalysis.Ddfs.LruCache
import FreqAnalysis.Ddfs.LruRefine
import FreqAnalysis.Ddfs.LruConf
import FreqAnalysis.Ddfs.LruAbstract
import FreqAnalysis.Ddfs.LruInvariant
import FreqAnalysis.Ddfs.Container
import FreqAnalysis.Ddfs.System
import FreqAnalysis.Ddfs.SystemInv
import FreqAnalysis.Ddfs.ContainerRuns
import FreqAnalysis.Ddfs.Guarantees
import FreqAnalysis.Locality.Records
import FreqAnalysis.Locality.Count
import FreqAnalysis.Locality.CountExact
import FreqAnalysis.Locality.CountSymmetry
import FreqAnalysis.Locality.Attack
import FreqAnalysis.Locality.AttackInv
import FreqAnalysis.Locality.AttackRun
import FreqAnalysis.Locality.AttackRate
import FreqAnalysis.Locality.AttackPairs
import FreqAnalysis.Locality.AttackRank
import FreqAnalysis.Locality.AttackTop
import FreqAnalysis.Locality.AttackLeak
import FreqAnalysis.Basic.Attack
import FreqAnalysis.Basic.Bounded
import FreqAnalysis.Defense.Segment
import FreqAnalysis.Defense.Limits
import FreqAnalysis.Defense.Scrambling
import FreqAnalysis.Defense.MinHash
import FreqAnalysis.Defense.Combined
import FreqAnalysis.Defense.KMinHash
import FreqAnalysis.Defense.KMinHashSelect
import FreqAnalysis.Base.Worklist
import FreqAnalysis.Locality.AttackRename
import FreqAnalysis.Locality.AttackComplete
import FreqAnalysis.Locality.AttackStream
import FreqAnalysis.Defense.MinHashAttack
import FreqAnalysis.Locality.AttackAnswers
import FreqAnalysis.Ddfs.Store
import FreqAnalysis.Ddfs.Loads
import FreqAnalysis.Defense.Storage
import FreqAnalysis.Base.Chunker
import FreqAnalysis.Base.Rolling
import FreqAnalysis.FsHasher.Rabin
import FreqAnalysis.FsHasher.Chunking
import FreqAnalysis.FsHasher.Process
import FreqAnalysis.FsHasher.Edits
import FreqAnalysis.Base.ByteFile
import FreqAnalysis.FsHasher.HashFile
import FreqAnalysis.FsHasher.HashFileRead
import FreqAnalysis.FsHasher.HfStat
import FreqAnalysis.FsHasher.Pipeline
import FreqAnalysis.Base.Crc
import FreqAnalysis.LevelDb.Coding
import FreqAnalysis.LevelDb.Crc32c
import FreqAnalysis.LevelDb.Log
import FreqAnalysis.LevelDb.LogLayout
import FreqAnalysis.LevelDb.LogRecover
import FreqAnalysis.LevelDb.LogCrash
import FreqAnalysis.LevelDb.Recovery
import FreqAnalysis.LevelDb.Writes
import FreqAnalysis.LevelDb.Crash
