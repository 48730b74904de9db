import SpaServer.Base.Disk
import SpaServer.Config

/-!
# The file cache

`file_cache.rs`: for every domain a map from keys, the paths relative to the
version directory, to cached items.  `cacheDir` reads a version directory into
such a map; a file over the size limit stays on the disk and only its path is
kept, a smaller one is kept in memory, compressed when the domain asks for it
and the extension is one of `compressionFileType`.

`gzip`, MD5 and the MIME table are other people's crates and stay parameters
(`Crates`).
-/

namespace SpaServer

open Base

/-- The third-party functions the server calls. -/
structure Crates where
  gzip : List UInt8 → List UInt8
  md5 : List UInt8 → Str
  mimeFromPath : Str → Str

/-- Simple stand-ins: no compression, and the bytes themselves as their digest. -/
def Crates.simple : Crates where
  gzip bytes := bytes
  md5 bytes := bytes.map fun b => Char.ofNat b.toNat
  mimeFromPath _ := "text/html".toList

/-- `std::fs::Metadata`, of a file. -/
structure FileMeta where
  len : Nat
  modified : Nat
  deriving DecidableEq

inductive DataBlock where
  | cacheBlock (bytes : List UInt8) (compressed : Bool) (path : PathBuf)
  | fileBlock (path : PathBuf)
  deriving DecidableEq

structure CacheItem where
  fileMeta : FileMeta
  data : DataBlock
  mime : Str
  expire : Option Duration
  deriving DecidableEq

abbrev FileMap := DashMap CacheItem

/-- `file_cache::DomainCacheConfig`: the settings of each domain, resolved. -/
structure CacheSettings where
  fallback : CacheConfig
  inner : DashMap CacheConfig

/-- `DomainCacheConfig::new`: what a domain leaves out comes from the default. -/
def CacheSettings.new (conf : Config) : CacheSettings where
  fallback := conf.cache
  inner := DashMap.collect (conf.domains.map fun d =>
    (d.domain,
      { maxSize := (d.cache.bind (·.maxSize)).getD conf.cache.maxSize
        compression := (d.cache.bind (·.compression)).getD conf.cache.compression
        clientCache := (d.cache.bind (·.clientCache)).getD conf.cache.clientCache }))

def CacheSettings.getDomainCacheConfig (s : CacheSettings) (domain : Str) : CacheConfig :=
  (s.inner domain).getD s.fallback

def CacheSettings.getDomainExpireConfig (s : CacheSettings) (domain : Str) : DashMap Duration :=
  DashMap.collect ((s.getDomainCacheConfig domain).clientCache.flatMap fun item =>
    item.extensionNames.map fun name => (name, item.expire))

def compressionFileType : List Str :=
  ["html".toList, "js".toList, "icon".toList, "json".toList, "css".toList]

structure FileCache where
  conf : CacheSettings
  data : DashMap FileMap

def FileCache.new (conf : Config) : FileCache := ⟨.new conf, .empty⟩

def FileCache.update (c : FileCache) (domain : Str) (data : FileMap) : FileCache :=
  { c with data := c.data.insert domain data }

def FileCache.getItem (c : FileCache) (domain path : Str) : Option CacheItem :=
  (c.data domain).bind fun m => m path

namespace CacheSettings

/-- The item `cache_dir` makes of one entry of the walk; `root` is the version directory. -/
def cacheEntry (crates : Crates) (s : CacheSettings) (domain : Str) (root : PathBuf)
    (e : Disk.Entry) : Option (Str × CacheItem) :=
  match e.node, e.text with
  | .file f, some x =>
    let conf := s.getDomainCacheConfig domain
    let key := remove (root ++ ['/']) x
    let extensionName := (key.splitOn '.').getLast?.getD []
    let dataBlock :=
      if conf.maxSize < f.bytes.length then .fileBlock x
      else if conf.compression ∧ extensionName ∈ compressionFileType then
        .cacheBlock (crates.gzip f.bytes) true x
      else .cacheBlock f.bytes false x
    some (key,
      { fileMeta := ⟨f.bytes.length, f.modified⟩
        data := dataBlock
        mime := crates.mimeFromPath x
        expire := s.getDomainExpireConfig domain extensionName })
  | _, _ => none

/-- `FileCache::cache_dir`.  Its one error, a path that is not UTF-8, cannot come
up: the paths it is given are made of strings. -/
def cacheDir (crates : Crates) (s : CacheSettings) (dk : Disk) (domain : Str) (path : PathBuf) :
    FileMap :=
  DashMap.collect ((dk.walkDir path none).filterMap (s.cacheEntry crates domain path))

end CacheSettings

end SpaServer
