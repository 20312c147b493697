import MoneroOxide.Lib.Bytes
import MoneroOxide.Lib.Reader
import MoneroOxide.Lib.Lists
import MoneroOxide.Order
import MoneroOxide.Io
import MoneroOxide.Ed25519
import MoneroOxide.Proofs
import MoneroOxide.Ringct
import MoneroOxide.Transaction
import MoneroOxide.Theorems.Codec
import MoneroOxide.Lib.ChallengeRing
import MoneroOxide.Clsag
import MoneroOxide.Lemmas.Clsag
import MoneroOxide.Lemmas.Instance
import MoneroOxide.Theorems.Clsag
import MoneroOxide.ClsagMultisig
import MoneroOxide.Lemmas.ClsagMultisig
import MoneroOxide.Theorems.ClsagMultisig
import MoneroOxide.Lib.Tabulate
import MoneroOxide.Lib.InnerProduct
import MoneroOxide.Bulletproofs
import MoneroOxide.BulletproofsOriginal
import MoneroOxide.BulletproofsPlus
import MoneroOxide.RangeProof
import MoneroOxide.Lemmas.Bulletproofs
import MoneroOxide.Lemmas.BulletproofsOriginal
import MoneroOxide.Lemmas.BulletproofsPlus
import MoneroOxide.Lemmas.Batch
import MoneroOxide.Theorems.RangeProof
import MoneroOxide.Theorems.Batch
import MoneroOxide.Lib.Call
import MoneroOxide.Lib.Results
import MoneroOxide.Lib.PerfectTree
import MoneroOxide.Merkle
import MoneroOxide.Block
import MoneroOxide.Interface
import MoneroOxide.Lemmas.Interface
import MoneroOxide.Theorems.Interface
import MoneroOxide.Daemon
import MoneroOxide.Lemmas.Daemon
import MoneroOxide.Theorems.Daemon
import MoneroOxide.Address
import MoneroOxide.ViewPair
import MoneroOxide.Extra
import MoneroOxide.WalletOutput
import MoneroOxide.Epee
import MoneroOxide.Lemmas.Epee
import MoneroOxide.EpeeObject
import MoneroOxide.Lemmas.EpeeObject
import MoneroOxide.Theorems.Epee
import MoneroOxide.Theorems.EpeeReuse
import MoneroOxide.BinRpc
import MoneroOxide.BlocksBin
import MoneroOxide.Lemmas.BinRpc
import MoneroOxide.Theorems.BlocksBin
import MoneroOxide.OutputIndexes
import MoneroOxide.Lemmas.OutputIndexes
import MoneroOxide.Scan
import MoneroOxide.Theorems.Scan
import MoneroOxide.Lib.Sorting
import MoneroOxide.SignableTransaction
import MoneroOxide.Send
import MoneroOxide.SendMultisig
import MoneroOxide.DecoySelection
import MoneroOxide.Lemmas.DecoySelection
import MoneroOxide.Theorems.DecoySelection
import MoneroOxide.Lemmas.Transaction
import MoneroOxide.Lemmas.SignableTransaction
import MoneroOxide.Lemmas.Send
import MoneroOxide.Lemmas.Sign
import MoneroOxide.Theorems.Send
import MoneroOxide.Lemmas.SendMultisig
import MoneroOxide.Theorems.SendMultisig
import MoneroOxide.Theorems.Fee
import MoneroOxide.Base58
import MoneroOxide.Lemmas.Base58
import MoneroOxide.Theorems.Base58
import MoneroOxide.AddressBytes
import MoneroOxide.Lemmas.Address
import MoneroOxide.Theorems.Address
import MoneroOxide.Eventuality
import MoneroOxide.Lemmas.Extra
import MoneroOxide.Lemmas.WalletOutput
import MoneroOxide.Lemmas.SendCodec
import MoneroOxide.Theorems.SendCodec
import MoneroOxide.Theorems.InputOrder
import MoneroOxide.Theorems.Block
import MoneroOxide.Theorems.OutputIndexes
import MoneroOxide.Theorems.Merkle
import MoneroOxide.Theorems.HashToPoint
import MoneroOxide.Lib.BinaryDigits
import MoneroOxide.UnreducedScalar
import MoneroOxide.Theorems.UnreducedScalar
import MoneroOxide.Mlsag
import MoneroOxide.Theorems.Mlsag
import MoneroOxide.Theorems.ClsagShares
import MoneroOxide.Theorems.WalletOutput
import MoneroOxide.Theorems.Extra
import MoneroOxide.Lemmas.Recipient
import MoneroOxide.Lemmas.ScanComplete
import MoneroOxide.Lemmas.SendScan
import MoneroOxide.Theorems.SendScan
import MoneroOxide.Theorems.Eventuality
import MoneroOxide.OutsBin
import MoneroOxide.Lemmas.Requests
import MoneroOxide.Theorems.Requests
import MoneroOxide.Lib.Checked
import MoneroOxide.VarInt
import MoneroOxide.Theorems.VarInt
import MoneroOxide.FeeRate
import MoneroOxide.Theorems.FeeRate
import MoneroOxide.Theorems.Decoys
import MoneroOxide.Lib.InPlace
import MoneroOxide.Theorems.ChallengeProducts
import MoneroOxide.Theorems.InnerProduct
import MoneroOxide.Lib.Binding
import MoneroOxide.Lemmas.HashBinding
import MoneroOxide.Theorems.HashBinding
import MoneroOxide.DaemonRpc
import MoneroOxide.Lemmas.DaemonRpc
import MoneroOxide.Theorems.DaemonRpc
import MoneroOxide.Lib.Schnorr
import MoneroOxide.RingSignatures
import MoneroOxide.Borromean
import MoneroOxide.Lemmas.RingProofs
import MoneroOxide.Theorems.RingSignatures
import MoneroOxide.Lemmas.Mlsag
import MoneroOxide.Theorems.MlsagVerify
import MoneroOxide.Theorems.ClsagExtract
import MoneroOxide.Theorems.Borromean
import MoneroOxide.Theorems.KeyImages
import MoneroOxide.Lemmas.DaemonReads
import MoneroOxide.Lemmas.Agreement
import MoneroOxide.Theorems.Agreement
import MoneroOxide.Theorems.BurningBug
