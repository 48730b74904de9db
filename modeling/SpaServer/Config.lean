import SpaServer.Base.DashMap
import SpaServer.Base.Path

/-!
# Configuration

The records of `config.rs`, with their defaults.  Reading them from a HOCON file
is `hocon`'s work; here a loaded configuration is a value.
-/

namespace SpaServer

open Base

abbrev Duration := Nat

structure ClientCacheItem where
  expire : Duration
  extensionNames : List Str

structure CacheConfig where
  maxSize : Nat
  compression : Bool
  clientCache : List ClientCacheItem

def defaultMaxSize : Nat := 10 * 1024 * 1024

def CacheConfig.default : CacheConfig := ⟨defaultMaxSize, false, []⟩

/-- The cache settings of one domain, each of which may be left out. -/
structure DomainCacheConfig where
  maxSize : Option Nat
  compression : Option Bool
  clientCache : Option (List ClientCacheItem)

structure DomainConfig where
  domain : Str
  cache : Option DomainCacheConfig

structure HttpsConfig where
  port : Int
  addr : Str

def defaultCron : Str := "0 0 3 * * *".toList

def defaultMaxReserve : UInt32 := 2

structure DeprecatedVersionRemove where
  cron : Str := defaultCron
  maxReserve : UInt32 := defaultMaxReserve
  deriving DecidableEq

def defaultMaxUploadSize : Nat := 30 * 1024 * 1024

structure AdminConfig where
  port : UInt32
  addr : Str
  token : Str
  maxUploadSize : Nat := defaultMaxUploadSize
  deprecatedVersionDelete : Option DeprecatedVersionRemove := none
  deriving DecidableEq

structure Config where
  port : UInt32
  addr : Str
  fileDir : PathBuf
  adminConfig : Option AdminConfig := none
  https : Option HttpsConfig := none
  cache : CacheConfig := .default
  domains : List DomainConfig := []

end SpaServer
