import UnsoloKey.ScanTermination
import UnsoloKey.PinPage
import UnsoloKey.StoreRefinement
import UnsoloKey.Reassembly
import UnsoloKey.TouchWait
import UnsoloKey.Sha256
import UnsoloKey.PowerCut
import UnsoloKey.UserVerification
import UnsoloKey.RequestBytes
import UnsoloKey.CborEncode
import UnsoloKey.DeleteCredential
import UnsoloKey.Registration
import UnsoloKey.AssertionWalk
import UnsoloKey.FlashLock
import UnsoloKey.Management
import UnsoloKey.PinTransitions
import UnsoloKey.SlotChanges
import UnsoloKey.SlotPowerCut
import UnsoloKey.UnverifiedRegistration
import UnsoloKey.TokenProtocol
import UnsoloKey.UserPresence
import UnsoloKey.CborExtent
import UnsoloKey.ManagementMac
import UnsoloKey.DerSignature
import UnsoloKey.Login
import UnsoloKey.ChannelIsolation
import UnsoloKey.WalkOrigin
import UnsoloKey.SendReceive
import UnsoloKey.EndpointRing
import UnsoloKey.ReportMailbox
import UnsoloKey.CipherInverse
import UnsoloKey.HostSession
import UnsoloKey.PinLifecycle
import UnsoloKey.TokenUse
import UnsoloKey.CredentialListing
import UnsoloKey.Answers
import UnsoloKey.NameFields
import UnsoloKey.NameSecrecy
import UnsoloKey.TwinDevices
import UnsoloKey.InitHandlers
import UnsoloKey.RequestBuffer
import UnsoloKey.WalkChallenge
import UnsoloKey.CredentialLists
import UnsoloKey.RpIdentity
import UnsoloKey.Reregistration
import UnsoloKey.Utf8
import UnsoloKey.TextFields
import UnsoloKey.OptionSearch
import UnsoloKey.Options
import UnsoloKey.HostPoint
import UnsoloKey.CborWire
import UnsoloKey.ScanExact
import UnsoloKey.AccessorAgreement
import UnsoloKey.MapLookup
import UnsoloKey.ScanBounds
import UnsoloKey.ParserBounds
import UnsoloKey.DerEncoding
import UnsoloKey.Sha256Standard
import UnsoloKey.ItemWire
import UnsoloKey.EncoderMemory
import UnsoloKey.EncoderRoundTrip
import UnsoloKey.CryptoFailures
import UnsoloKey.PresenceRounds
import UnsoloKey.PresenceLoop
import UnsoloKey.WaitRefinement
import UnsoloKey.EccSign
import UnsoloKey.SessionKeys
import UnsoloKey.AssertionOrigin
import UnsoloKey.AesStandard
import UnsoloKey.ControlTransfers
