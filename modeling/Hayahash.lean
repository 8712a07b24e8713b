import Hayahash.Main.Mixers
import Hayahash.Main.Shapes
import Hayahash.Main.Bounds
import Hayahash.Main.Streaming
import Hayahash.Main.Short
import Hayahash.Main.Length
import Hayahash.Main.Seed
import Hayahash.Main.Absorb
import Hayahash.Main.Orbit
import Hayahash.Main.Window
import Hayahash.Main.Edit
import Hayahash.Main.Blocks
import Hayahash.Main.Haskell
import Hayahash.Main.Buffering
import Hayahash.Main.ByteOrder
import Hayahash.Main.Java
import Hayahash.Main.Rust
import Hayahash.Main.Hasher
import Hayahash.Main.GoCSharp
import Hayahash.Main.SwiftZig
import Hayahash.Main.Js
import Hayahash.Main.Sim
import Hayahash.Main.Mips
import Hayahash.Main.Output
import Hayahash.Main.Arguments
import Hayahash.Main.Reader
import Hayahash.Main.Shell
import Hayahash.Main.Wasm
import Hayahash.Main.Python
import Hayahash.Main.Corpora
import Hayahash.Main.Refusal
import Hayahash.Main.Npm
