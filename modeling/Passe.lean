import Passe.Radix64
import Passe.Decimal
import Passe.Mixing
import Passe.Cyclic
import Passe.Buffer
import Passe.Framing
import Passe.Runtime
import Passe.BlowfishTables
import Passe.Blowfish
import Passe.BlockCipher
import Passe.BlowfishModes
import Passe.BcryptBase64
import Passe.BcryptHashpass
import Passe.Crypto
import Passe.Bcrypt
import Passe.BcryptOutcome
import Passe.BcryptHashing
import Passe.BcryptStored
import Passe.BcryptSalt
import Passe.BcryptGenerate
import Passe.Blake2b
import Passe.Chunks
import Passe.Blake2Stream
import Passe.Argon2Context
import Passe.Argon2Memory
import Passe.Interleaving
import Passe.Argon2Reference
import Passe.Argon2Segment
import Passe.Argon2Threads
import Passe.Argon2Pool
import Passe.Argon2Runs
import Passe.Argon2Fill
import Passe.Argon2Mixing
import Passe.Argon2Recurrence
import Passe.Argon2Base64
import Passe.Argon2Encoding
import Passe.Argon2
import Passe.Argon2Outcome
import Passe.Argon2RoundTrip
import Passe.Argon2Params
import Passe.Argon2Stub
import Passe.Argon2Stored
import Passe.Argon2Api
import Passe.EndToEnd
