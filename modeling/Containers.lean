import Containers.Buffer.Slots
import Containers.ChainedMap.InPlace
import Containers.ChainedMap.Operation
import Containers.ChainedMap.Settings
import Containers.ChainedMap.Spread
import Containers.ChainedMap.Walk
import Containers.ExactVector
import Containers.FloatFormat.Payload
import Containers.Foreign.Session
import Containers.GrowableArray.InPlace
import Containers.Item
import Containers.Proofs.ChainedMap.Commute
import Containers.Proofs.ChainedMap.InPlace
import Containers.Proofs.ChainedMap.Order
import Containers.Proofs.ChainedMap.ReferenceHash
import Containers.Proofs.ChainedMap.Spread
import Containers.Proofs.ChainedMap.Undo
import Containers.Proofs.ChainedMap.Walk
import Containers.Proofs.Decimal.Canonical
import Containers.Proofs.Decimal.General
import Containers.Proofs.Decimal.NumberBuffer
import Containers.Proofs.Decimal.Numeral
import Containers.Proofs.Decimal.Order
import Containers.Proofs.FloatFormat.Narrow
import Containers.Proofs.Foreign.Arrays
import Containers.Proofs.Foreign.Constructors
import Containers.Proofs.Foreign.Failures
import Containers.Proofs.Foreign.Maps
import Containers.Proofs.Foreign.Measurements
import Containers.Proofs.Foreign.Strings
import Containers.Proofs.GrowableArray.Access
import Containers.Proofs.GrowableArray.Amortized
import Containers.Proofs.GrowableArray.Ascent
import Containers.Proofs.GrowableArray.Capacity
import Containers.Proofs.GrowableArray.Ranges
import Containers.Proofs.GrowableArray.Refusal
import Containers.Proofs.Hash.Invertible
import Containers.Proofs.Hash.Padding
import Containers.Proofs.Hash.Reference
import Containers.ShortText
