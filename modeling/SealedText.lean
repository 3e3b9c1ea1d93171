import SealedText.Checksum
import SealedText.Cipher.Mask
import SealedText.Command.Session
import SealedText.KeyStore.File
import SealedText.Main
import SealedText.Opening
import SealedText.Settings
import SealedText.Proofs.AesLawful
import SealedText.Proofs.BareToken
import SealedText.Proofs.Base61Defects
import SealedText.Proofs.Base61Exact
import SealedText.Proofs.Base61RoundTrip
import SealedText.Proofs.Base64RoundTrip
import SealedText.Proofs.BlockHeaders
import SealedText.Proofs.Blocks
import SealedText.Proofs.CascadeComposition
import SealedText.Proofs.CascadeHistory
import SealedText.Proofs.ChainInverse
import SealedText.Proofs.ChainedTags
import SealedText.Proofs.CodedBlocks
import SealedText.Proofs.CommandEffects
import SealedText.Proofs.CommandRuns
import SealedText.Proofs.CopyTokens
import SealedText.Proofs.DeflateRoundTrip
import SealedText.Proofs.DeflateSize
import SealedText.Proofs.Delivery
import SealedText.Proofs.EngineTree
import SealedText.Proofs.KeyExchange
import SealedText.Proofs.KeyFileDurable
import SealedText.Proofs.KeyFileRoundTrip
import SealedText.Proofs.KeyringDistinct
import SealedText.Proofs.KeyringUnique
import SealedText.Proofs.OpeningAnswer
import SealedText.Proofs.OptimalLengths
import SealedText.Proofs.PackedBits
import SealedText.Proofs.PayloadLimit
import SealedText.Proofs.PrefixCodes
import SealedText.Proofs.RevocationTarget
import SealedText.Proofs.RevokedSecrets
import SealedText.Proofs.SharedKeyFile
import SealedText.Proofs.StreamedTags
import SealedText.Proofs.TokenLengths
import SealedText.Proofs.WrappedSecrets
import SealedText.Proofs.ChainExact
import SealedText.Proofs.TokenSeparation
import SealedText.Proofs.EnvelopeForms
import SealedText.Proofs.VectorHead
import SealedText.Proofs.TomlDocument
import SealedText.Proofs.SettingsRoundTrip
import SealedText.Proofs.InflateReads
import SealedText.Proofs.InflateRuns
import SealedText.Proofs.MemberHeader
import SealedText.Proofs.MemberIntegrity
import SealedText.Proofs.StoredMembers
import SealedText.Proofs.GzipGuard
