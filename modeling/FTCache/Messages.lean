import FTCache.Library.Memory
import FTCache.Library.PartialMap
import FTCache.Library.Words

namespace FTCache

abbrev Path := List Char
abbrev Bytes := List UInt8
abbrev Fd := ℤ
abbrev Host := ℤ
abbrev Address := List Char
abbrev Addr := ℕ

/-- `ftc_open_in_t`. -/
structure OpenIn where
  path : Path
  localfd : Fd
  deriving DecidableEq

/-- `ftc_rpc_in_t`. The bulk handle is known by the size it was registered with. -/
structure RpcIn where
  inputVal : ℤ
  bulkSize : ℕ
  accessfd : Fd
  localfd : Fd
  offset : ℤ
  deriving DecidableEq

/-- `ftc_seek_in_t`. -/
structure SeekIn where
  fd : Fd
  offset : ℤ
  whence : ℤ
  deriving DecidableEq

/-- `ftc_close_in_t`. -/
structure CloseIn where
  fd : Fd
  deriving DecidableEq

inductive Request
  | openRpc (inp : OpenIn)
  | baseRpc (inp : RpcIn)
  | seekRpc (inp : SeekIn)
  | closeRpc (inp : CloseIn)
  deriving DecidableEq

/-- What the client environment of one job fixes: name resolution, the
directory the cache serves, the hash that places files, the port file and the
shared parallel file system. -/
structure Config where
  canonical : Path → Option Path
  dataDir : Option Path
  currentPath : Path
  hash : Path → ℕ
  serverCount : ℕ
  ports : Option (List (Host × Address))
  files : Path → Option Bytes

/-- `std::hash<std::string>{}(path) % g_ftc_server_count`, stored in an `int`. -/
def Config.host (cfg : Config) (p : Path) : Host :=
  Words.int32 ((cfg.hash p % cfg.serverCount : ℕ) : ℤ)

def samplePath : Path := ['/', 'd', '/', 'f']

def otherPath : Path := ['/', 'd', '/', 'g']

/-- One server and two files in the served directory, for runs on fixed inputs. -/
def sampleConfig : Config where
  canonical p := if p = samplePath ∨ p = otherPath then some p else none
  dataDir := none
  currentPath := ['/', 'd']
  hash _ := 0
  serverCount := 1
  ports := some [(0, ['a'])]
  files p := if p = samplePath then some [1, 2, 3, 4] else if p = otherPath then some [5, 6]
    else none

end FTCache
