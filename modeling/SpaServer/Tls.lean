import SpaServer.Base.DashMap
import SpaServer.Base.Path
import SpaServer.Base.Text

/-!
# HTTPS connections

`tls.rs`.  `load_ssl_server_config` reads the certificates that the configuration names and
makes the resolver that picks one for the name a client asks for; a `TlsStream` is the handshake
of an accepted connection first and the encrypted stream after it.

Files, PEM parsing, keys and the resolver by name are `rustls`'s and stay parameters.

* `loadSslServerConfig_spec`: when the configuration loads, and which certificate each name gets.
* `tlsStream_run`: however a connection is polled, its calls are answered as pending until the
  handshake is done, and from then on they are those of the stream, in order, none of them lost.
-/

namespace SpaServer.Tls

open Base

/-! ### Certificates -/

structure SSL where
  privatePath : Str
  publicPath : Str
  deriving DecidableEq

/-- What is read of `HttpsConfig` and of `DomainHttpsConfig`. -/
structure HttpsSettings where
  ssl : Option SSL

/-- What is read of `DomainConfig`. -/
structure DomainSettings where
  domain : Str
  https : Option HttpsSettings

/-- What is read of `Config`. -/
structure Settings where
  https : Option HttpsSettings
  domains : List DomainSettings

structure CertifiedKey (K : Type) where
  certs : List (List UInt8)
  key : K

/-- The name that a client asks for, as the resolver gets it. -/
def serverName (asked : Str) : Str := asked.map Char.toLower

/-- What `rustls` and `rustls_pemfile` do, with keys `K` and resolvers by name `W`. -/
structure Rustls (K W : Type) where
  certs : List UInt8 → Option (List (List UInt8))
  rsaPrivateKeys : List UInt8 → Option (List (List UInt8))
  anySupportedType : List UInt8 → Option K
  /-- `ResolvesServerCertUsingSni::new`, `add` and `resolve`. -/
  new : W
  add : W → Str → CertifiedKey K → Option W
  resolve : W → Option Str → Option (CertifiedKey K)

/-- A resolver by name knows the keys that it has been given, each under its name as it is written,
and takes a key under every name that the key is for.  It looks up what a client asks for in lower
case. -/
structure Rustls.Documented {K W : Type} (rustls : Rustls K W) (isFor : CertifiedKey K → Str → Prop) :
    Prop where
  new : ∀ name, rustls.resolve rustls.new name = none
  add : ∀ w name key, (∃ w', rustls.add w name key = some w') ↔ isFor key name
  resolve : ∀ w w' name key, rustls.add w name key = some w' → ∀ asked,
    rustls.resolve w' asked =
      if asked.map serverName = some name then some key else rustls.resolve w asked

inductive SslError where
  | noSsl
  | loadCert (certPath : Str)
  | parseCert (certPath : Str)
  | loadKey (certPath : Str)
  | parseKey (certPath : Str)
  | notSingleKey
  | invalidKey
  | add (domain : Str)
  deriving DecidableEq

/-- The resolver of a server, `AlwaysResolver` or `CertResolver`. -/
inductive Resolver (K W : Type) where
  | always (key : CertifiedKey K)
  | cert (fallback : Option (CertifiedKey K)) (wrapper : W)

structure ServerConfig (K W : Type) where
  resolver : Resolver K W
  alpnProtocols : List Str

section Load

variable {K W : Type} (rustls : Rustls K W) (files : Str → Option (List UInt8))

/-- `load_ssl_file`.  The errors about the key name the path of the certificate. -/
def loadSslFile (ssl : SSL) : Except SslError (CertifiedKey K) :=
  match files ssl.publicPath with
  | none => .error (.loadCert ssl.publicPath)
  | some certFile =>
    match rustls.certs certFile with
    | none => .error (.parseCert ssl.publicPath)
    | some certs =>
      match files ssl.privatePath with
      | none => .error (.loadKey ssl.publicPath)
      | some keyFile =>
        match rustls.rsaPrivateKeys keyFile with
        | none => .error (.parseKey ssl.publicPath)
        | some [privateKey] =>
          match rustls.anySupportedType privateKey with
          | none => .error .invalidKey
          | some key => .ok ⟨certs, key⟩
        | some _ => .error .notSingleKey

/-- The loop that adds the key of every domain. -/
def addDomains (wrapper : W) : List (Str × SSL) → Except SslError W
  | [] => .ok wrapper
  | (domain, ssl) :: rest =>
    match loadSslFile rustls files ssl with
    | .error e => .error e
    | .ok key =>
      match rustls.add wrapper domain key with
      | none => .error (.add domain)
      | some wrapper => addDomains wrapper rest

/-- The certificates of the domains, in the order of the configuration. -/
def Settings.ssls (conf : Settings) : List (Str × SSL) :=
  conf.domains.filterMap fun domain =>
    (domain.https.bind (·.ssl)).map fun ssl => (domain.domain, ssl)

def loadDefault (conf : Settings) : Except SslError (Option (CertifiedKey K)) :=
  match conf.https.bind (·.ssl) with
  | some ssl => (loadSslFile rustls files ssl).map some
  | none => .ok none

def loadSslServerConfig (conf : Settings) : Except SslError (ServerConfig K W) :=
  match loadDefault rustls files conf with
  | .error e => .error e
  | .ok fallback =>
    let resolver : Except SslError (Resolver K W) :=
      match conf.ssls, fallback with
      | [], none => .error .noSsl
      | [], some key => .ok (.always key)
      | ssls, fallback => (addDomains rustls files rustls.new ssls).map (.cert fallback)
    resolver.map fun resolver => ⟨resolver, ["h2".toList, "http/1.1".toList]⟩

/-- `ResolvesServerCert::resolve`, for the name that the client asks for. -/
def Resolver.resolve : Resolver K W → Option Str → Option (CertifiedKey K)
  | always key, _ => some key
  | cert fallback wrapper, name => (rustls.resolve wrapper name).or fallback

/-- The entry of a name: the last with a certificate whose domain is the name in lower case. -/
def Settings.sslOf (conf : Settings) (asked : Str) : Option SSL :=
  ((conf.ssls.filter fun entry => entry.1 = serverName asked).getLast?).map (·.2)

def keyFor (conf : Settings) (name : Option Str) : Option (CertifiedKey K) :=
  ((name.bind conf.sslOf).bind fun ssl => (loadSslFile rustls files ssl).toOption).or
    ((conf.https.bind (·.ssl)).bind fun ssl => (loadSslFile rustls files ssl).toOption)

/-- Some certificate is named, and every one that is can be loaded and is for its domain. -/
structure Loads (isFor : CertifiedKey K → Str → Prop) (conf : Settings) : Prop where
  nonempty : conf.https.bind (·.ssl) ≠ none ∨ conf.ssls ≠ []
  fallback : ∀ ssl, conf.https.bind (·.ssl) = some ssl → ∃ key, loadSslFile rustls files ssl = .ok key
  domains : ∀ entry ∈ conf.ssls, ∃ key, loadSslFile rustls files entry.2 = .ok key ∧ isFor key entry.1

end Load

section Loading

variable {K W : Type} {rustls : Rustls K W} {isFor : CertifiedKey K → Str → Prop}
  {files : Str → Option (List UInt8)}

/-- Induction on the entries to go: a later one hides what is under its name already. -/
theorem addDomains_ok (hrustls : rustls.Documented isFor) {entries : List (Str × SSL)} {w w' : W}
    (h : addDomains rustls files w entries = .ok w') :
    (∀ entry ∈ entries, ∃ key, loadSslFile rustls files entry.2 = .ok key ∧ isFor key entry.1) ∧
      ∀ asked, rustls.resolve w' asked =
        (asked.bind fun name => ((entries.filter fun entry => entry.1 = serverName name).getLast?).bind
          fun entry => (loadSslFile rustls files entry.2).toOption).or (rustls.resolve w asked) := by
  induction entries generalizing w with
  | nil =>
    obtain rfl := Except.ok.inj h
    exact ⟨by simp, fun asked => by cases asked <;> rfl⟩
  | cons entry rest ih =>
    obtain ⟨domain, ssl⟩ := entry
    rw [addDomains] at h
    cases hload : loadSslFile rustls files ssl with
    | error e =>
      rw [hload] at h
      exact absurd h (by simp)
    | ok key =>
      rw [hload] at h
      dsimp only at h
      cases hadd : rustls.add w domain key with
      | none =>
        rw [hadd] at h
        exact absurd h (by simp)
      | some w₁ =>
        rw [hadd] at h
        obtain ⟨hall, hresolve⟩ := ih h
        refine ⟨?_, fun asked => ?_⟩
        · intro entry hentry
          rcases List.mem_cons.mp hentry with rfl | hentry
          · exact ⟨key, hload, (hrustls.add w domain key).mp ⟨w₁, hadd⟩⟩
          · exact hall entry hentry
        · rw [hresolve, hrustls.resolve w w₁ domain key hadd]
          cases asked with
          | none => simp
          | some name =>
            simp only [Option.bind_some, Option.map_some, Option.some.injEq]
            generalize serverName name = name
            by_cases hname : domain = name
            · subst hname
              rw [if_pos rfl, List.filter_cons_of_pos (by simp), List.getLast?_cons]
              cases hlast : (rest.filter fun entry => entry.1 = domain).getLast? with
              | none => simp [hload, Except.toOption]
              | some last =>
                obtain ⟨key', hkey', -⟩ := hall last
                  (List.mem_of_mem_filter (List.mem_of_getLast? hlast))
                simp [hkey', Except.toOption]
            · rw [if_neg (Ne.symm hname), List.filter_cons_of_neg (by simpa using hname)]

theorem addDomains_total (hrustls : rustls.Documented isFor) {entries : List (Str × SSL)} (w : W)
    (h : ∀ entry ∈ entries, ∃ key, loadSslFile rustls files entry.2 = .ok key ∧ isFor key entry.1) :
    ∃ w', addDomains rustls files w entries = .ok w' := by
  induction entries generalizing w with
  | nil => exact ⟨w, rfl⟩
  | cons entry rest ih =>
    obtain ⟨domain, ssl⟩ := entry
    obtain ⟨key, hload, hfor⟩ := h _ List.mem_cons_self
    obtain ⟨w₁, hadd⟩ := (hrustls.add w domain key).mpr hfor
    rw [addDomains, hload]
    dsimp only
    rw [hadd]
    exact ih w₁ fun entry hentry => h entry (List.mem_cons_of_mem _ hentry)

theorem loadDefault_ok {conf : Settings} {fallback : Option (CertifiedKey K)}
    (h : loadDefault rustls files conf = .ok fallback) :
    fallback = (conf.https.bind (·.ssl)).bind (fun ssl => (loadSslFile rustls files ssl).toOption) ∧
      (fallback = none ↔ conf.https.bind (·.ssl) = none) ∧
      ∀ ssl, conf.https.bind (·.ssl) = some ssl → ∃ key, loadSslFile rustls files ssl = .ok key := by
  unfold loadDefault at h
  cases hssl : conf.https.bind (·.ssl) with
  | none =>
    rw [hssl] at h
    obtain rfl := Except.ok.inj h
    exact ⟨rfl, by simp, by simp⟩
  | some ssl =>
    rw [hssl] at h
    dsimp only at h
    cases hload : loadSslFile rustls files ssl with
    | error e =>
      rw [hload] at h
      exact absurd h (by simp [Except.map])
    | ok key =>
      rw [hload] at h
      obtain rfl := Except.ok.inj h
      refine ⟨by simp [hload, Except.toOption], by simp, fun ssl' hssl' => ?_⟩
      obtain rfl := Option.some.inj hssl'
      exact ⟨key, hload⟩

theorem keyFor_eq (conf : Settings) (name : Option Str) : keyFor rustls files conf name =
    (name.bind fun name => ((conf.ssls.filter fun entry => entry.1 = serverName name).getLast?).bind
      fun entry => (loadSslFile rustls files entry.2).toOption).or
    ((conf.https.bind (·.ssl)).bind fun ssl => (loadSslFile rustls files ssl).toOption) := by
  unfold keyFor Settings.sslOf
  cases name with
  | none => rfl
  | some name =>
    dsimp only [Option.bind_some]
    cases (conf.ssls.filter fun entry => entry.1 = serverName name).getLast? <;> rfl

theorem loadSslServerConfig_ok (hrustls : rustls.Documented isFor) {conf : Settings}
    {server : ServerConfig K W} (h : loadSslServerConfig rustls files conf = .ok server) :
    Loads rustls files isFor conf ∧
      ∀ name, server.resolver.resolve rustls name = keyFor rustls files conf name := by
  unfold loadSslServerConfig at h
  cases hdefault : loadDefault rustls files conf with
  | error e =>
    rw [hdefault] at h
    exact absurd h (by simp)
  | ok fallback =>
    obtain ⟨hvalue, hnone, hloads⟩ := loadDefault_ok hdefault
    rw [hdefault] at h
    dsimp only at h
    cases hssls : conf.ssls with
    | nil =>
      rw [hssls] at h
      cases fallback with
      | none => exact absurd h (by simp [Except.map])
      | some key =>
        obtain rfl := Except.ok.inj h
        refine ⟨⟨Or.inl fun he => absurd (hnone.mpr he) (by simp), hloads, by simp [hssls]⟩,
          fun name => ?_⟩
        rw [keyFor_eq, ← hvalue, hssls]
        cases name <;> rfl
    | cons entry rest =>
      rw [hssls] at h
      cases hadd : addDomains rustls files rustls.new (entry :: rest) with
      | error e =>
        dsimp only at h
        rw [hadd] at h
        exact absurd h (by simp [Except.map])
      | ok w =>
        dsimp only at h
        rw [hadd] at h
        obtain rfl := Except.ok.inj h
        obtain ⟨hall, hresolve⟩ := addDomains_ok hrustls hadd
        rw [← hssls] at hall hresolve
        refine ⟨⟨Or.inr (by simp [hssls]), hloads, hall⟩, fun name => ?_⟩
        show (rustls.resolve w name).or fallback = _
        rw [keyFor_eq, ← hvalue, hresolve, hrustls.new, Option.or_none]

/-- **The configuration loads just when every certificate that it names can be served**, and each
client then gets the certificate of the last entry whose domain is the name it asks for in lower
case, or else the default one. -/
theorem loadSslServerConfig_spec (hrustls : rustls.Documented isFor) (conf : Settings) :
    ((∃ server, loadSslServerConfig rustls files conf = .ok server) ↔
      Loads rustls files isFor conf) ∧
    ∀ server, loadSslServerConfig rustls files conf = .ok server →
      ∀ name, server.resolver.resolve rustls name = keyFor rustls files conf name := by
  refine ⟨⟨?_, fun h => ?_⟩, fun server h => (loadSslServerConfig_ok hrustls h).2⟩
  · rintro ⟨server, h⟩
    exact (loadSslServerConfig_ok hrustls h).1
  · obtain ⟨fallback, hfallback⟩ : ∃ fallback, loadDefault rustls files conf = .ok fallback := by
      unfold loadDefault
      cases hssl : conf.https.bind (·.ssl) with
      | none => exact ⟨none, rfl⟩
      | some ssl =>
        obtain ⟨key, hkey⟩ := h.fallback ssl hssl
        exact ⟨some key, by simp [hkey, Except.map]⟩
    obtain ⟨-, hnone, -⟩ := loadDefault_ok hfallback
    unfold loadSslServerConfig
    rw [hfallback]
    dsimp only
    cases hssls : conf.ssls with
    | nil =>
      cases fallback with
      | none => exact absurd (hnone.mp rfl) (h.nonempty.resolve_right (by simp [hssls]))
      | some key => exact ⟨_, rfl⟩
    | cons entry rest =>
      obtain ⟨w, hadd⟩ := addDomains_total hrustls rustls.new (hssls ▸ h.domains)
      dsimp only
      rw [hadd]
      exact ⟨_, rfl⟩

end Loading

def Rustls.simple : Rustls (List UInt8) (DashMap (CertifiedKey (List UInt8))) where
  certs file := some [file]
  rsaPrivateKeys file := some [file]
  anySupportedType key := some key
  new := .empty
  add w name key := if name = [] then none else some (w.insert name key)
  resolve w asked := asked.bind fun name => w (serverName name)

theorem Rustls.simple_documented : Rustls.simple.Documented fun _ name => name ≠ [] where
  new name := by cases name <;> rfl
  add w name key := by
    by_cases h : name = []
    · simp [Rustls.simple, h]
    · simp [Rustls.simple, h]
  resolve w w' name key h asked := by
    simp only [Rustls.simple] at h ⊢
    split at h
    · exact absurd h (by simp)
    · obtain rfl := Option.some.inj h
      cases asked with
      | none => simp
      | some n =>
        by_cases hn : serverName n = name
        · rw [Option.bind_some, Option.map_some, hn, DashMap.insert_self, if_pos rfl]
        · rw [Option.bind_some, DashMap.insert_of_ne _ hn, if_neg (by simpa using hn)]
          rfl

def fourCerts : Settings where
  https := some ⟨some ⟨"0.key".toList, "0.pem".toList⟩⟩
  domains :=
    [⟨"www.a.com".toList, some ⟨some ⟨"1.key".toList, "1.pem".toList⟩⟩⟩,
      ⟨"www.b.com".toList, none⟩,
      ⟨"www.a.com".toList, some ⟨some ⟨"2.key".toList, "2.pem".toList⟩⟩⟩,
      ⟨"WWW.C.com".toList, some ⟨some ⟨"3.key".toList, "3.pem".toList⟩⟩⟩]

/-- The one with capitals is never handed out. -/
theorem loadSslServerConfig_fourCerts :
    ∃ server, loadSslServerConfig .simple (fun path => some (encodeUtf8 path)) fourCerts =
        .ok server ∧
      server.resolver.resolve .simple (some "WWW.A.COM".toList) =
        some ⟨[encodeUtf8 "2.pem".toList], encodeUtf8 "2.key".toList⟩ ∧
      server.resolver.resolve .simple (some "www.b.com".toList) =
        some ⟨[encodeUtf8 "0.pem".toList], encodeUtf8 "0.key".toList⟩ ∧
      server.resolver.resolve .simple (some "WWW.C.com".toList) =
        some ⟨[encodeUtf8 "0.pem".toList], encodeUtf8 "0.key".toList⟩ := by
  have hload : ∀ ssl, loadSslFile Rustls.simple (fun path => some (encodeUtf8 path)) ssl =
      .ok ⟨[encodeUtf8 ssl.publicPath], encodeUtf8 ssl.privatePath⟩ := fun _ => rfl
  have hloads : Loads Rustls.simple (fun path => some (encodeUtf8 path)) (fun _ name => name ≠ [])
      fourCerts := by
    refine ⟨Or.inl (by simp [fourCerts]), fun ssl _ => ⟨_, hload ssl⟩, fun entry hentry => ?_⟩
    have hentry : entry = ("www.a.com".toList, ⟨"1.key".toList, "1.pem".toList⟩) ∨
        entry = ("www.a.com".toList, ⟨"2.key".toList, "2.pem".toList⟩) ∨
        entry = ("WWW.C.com".toList, ⟨"3.key".toList, "3.pem".toList⟩) := by
      simpa [fourCerts, Settings.ssls] using hentry
    refine ⟨_, hload entry.2, ?_⟩
    rcases hentry with rfl | rfl | rfl <;> decide
  have h := @loadSslServerConfig_spec (List UInt8) (DashMap (CertifiedKey (List UInt8)))
    Rustls.simple (fun _ name => name ≠ []) (fun path => some (encodeUtf8 path))
    Rustls.simple_documented fourCerts
  obtain ⟨server, hserver⟩ := h.1.mpr hloads
  exact ⟨server, hserver, h.2 server hserver _, h.2 server hserver _, h.2 server hserver _⟩

/-! ### Connections -/

inductive Poll (α : Type) where
  | pending
  | ready (value : α)

inductive IoCall where
  | read (capacity : Nat)
  | write (data : List UInt8)
  | flush
  | shutdown
  deriving DecidableEq

def IoCall.isData : IoCall → Bool
  | read _ | write _ => true
  | flush | shutdown => false

inductive IoReply where
  | error
  | bytes (data : List UInt8)
  | written (n : Nat)
  | done
  deriving DecidableEq

/-- What `tokio_rustls` does: an accepting handshake in the states `A`, a stream in the states `S`. -/
structure TokioRustls (A S : Type) where
  pollAccept : A → Poll (Except Unit S) × A
  pollStream : S → IoCall → Poll IoReply × S

inductive State (A S : Type) where
  | handshaking (accept : A)
  | streaming (stream : S)

section Stream

variable {A S : Type} (tokio : TokioRustls A S)

def pollData (call : IoCall) : State A S → Poll IoReply × State A S
  | .handshaking accept =>
    match tokio.pollAccept accept with
    | (.pending, accept) => (.pending, .handshaking accept)
    | (.ready (.ok stream), _) =>
      let (result, stream) := tokio.pollStream stream call
      (result, .streaming stream)
    | (.ready (.error _), accept) => (.ready .error, .handshaking accept)
  | .streaming stream =>
    let (result, stream) := tokio.pollStream stream call
    (result, .streaming stream)

def pollRest (call : IoCall) : State A S → Poll IoReply × State A S
  | .handshaking accept => (.ready .done, .handshaking accept)
  | .streaming stream =>
    let (result, stream) := tokio.pollStream stream call
    (result, .streaming stream)

def poll (call : IoCall) : State A S → Poll IoReply × State A S :=
  if call.isData then pollData tokio call else pollRest tokio call

def run {σ : Type} (step : IoCall → σ → Poll IoReply × σ) : List IoCall → σ → List (Poll IoReply) × σ
  | [], s => ([], s)
  | call :: calls, s =>
    let (result, s) := step call s
    let (results, s) := run step calls s
    (result :: results, s)

/-- The handshake is pending for `n` polls. -/
inductive PendingFor : Nat → A → A → Prop
  | zero (a : A) : PendingFor 0 a a
  | succ {n : Nat} {a a' a'' : A} (h : tokio.pollAccept a = (.pending, a')) (hn : PendingFor n a' a'') :
      PendingFor (n + 1) a a''

def cutAt : Nat → List IoCall → List IoCall × List IoCall
  | _, [] => ([], [])
  | n, call :: calls =>
    if call.isData then
      match n with
      | 0 => ([], call :: calls)
      | n + 1 => (call :: (cutAt n calls).1, (cutAt n calls).2)
    else (call :: (cutAt n calls).1, (cutAt n calls).2)

/-- The answers during the handshake: data waits, and there is nothing to flush or shut down. -/
def waiting (call : IoCall) : Poll IoReply := if call.isData then .pending else .ready .done

variable {tokio}

theorem cutAt_append (n : Nat) (calls : List IoCall) :
    (cutAt n calls).1 ++ (cutAt n calls).2 = calls := by
  induction calls generalizing n with
  | nil => rfl
  | cons call calls ih =>
    unfold cutAt
    split
    · cases n with
      | zero => rfl
      | succ n => exact congrArg (call :: ·) (ih n)
    · exact congrArg (call :: ·) (ih n)

theorem run_streaming (calls : List IoCall) (s : S) :
    run (poll tokio) calls (.streaming s) =
      ((run (fun call s => tokio.pollStream s call) calls s).1,
        .streaming (run (fun call s => tokio.pollStream s call) calls s).2) := by
  induction calls generalizing s with
  | nil => rfl
  | cons call calls ih =>
    have hstep : poll tokio call (.streaming s) =
        ((tokio.pollStream s call).1, .streaming (tokio.pollStream s call).2) := by
      unfold poll
      split <;> rfl
    simp only [run, hstep, ih]

theorem run_cons {σ : Type} (step : IoCall → σ → Poll IoReply × σ) (call : IoCall)
    (calls : List IoCall) (t : σ) : run step (call :: calls) t =
      ((step call t).1 :: (run step calls (step call t).2).1, (run step calls (step call t).2).2) :=
  rfl

theorem run_pending {n : Nat} {a a' : A} (hpending : PendingFor tokio n a a') (calls : List IoCall) :
    (run (poll tokio) calls (.handshaking a)).1 = (cutAt n calls).1.map waiting ++
        (run (poll tokio) (cutAt n calls).2 (.handshaking a')).1 ∧
      ((cutAt n calls).2 ≠ [] → (run (poll tokio) calls (.handshaking a)).2 =
        (run (poll tokio) (cutAt n calls).2 (.handshaking a')).2) := by
  induction calls generalizing n a with
  | nil => exact ⟨rfl, fun h => absurd rfl h⟩
  | cons call calls ih =>
    unfold cutAt
    by_cases hdata : call.isData = true
    · rw [if_pos hdata]
      cases hpending with
      | zero => exact ⟨rfl, fun _ => rfl⟩
      | @succ _ _ a₁ _ h hn =>
        have hstep : poll tokio call (.handshaking a) = (.pending, .handshaking a₁) := by
          rw [poll, if_pos hdata, pollData, h]
        obtain ⟨hreplies, hstate⟩ := ih hn
        rw [run_cons, hstep]
        refine ⟨?_, hstate⟩
        dsimp only
        rw [hreplies, List.map_cons, waiting, if_pos hdata, List.cons_append]
    · rw [if_neg hdata]
      have hstep : poll tokio call (.handshaking a) = (.ready .done, .handshaking a) := by
        rw [poll, if_neg hdata]
        rfl
      obtain ⟨hreplies, hstate⟩ := ih hpending
      rw [run_cons, hstep]
      refine ⟨?_, hstate⟩
      dsimp only
      rw [hreplies, List.map_cons, waiting, if_neg hdata, List.cons_append]

theorem isData_of_cutAt {n : Nat} {calls rest : List IoCall} {call : IoCall}
    (h : (cutAt n calls).2 = call :: rest) : call.isData = true := by
  induction calls generalizing n with
  | nil => exact absurd h (by simp [cutAt])
  | cons c calls ih =>
    unfold cutAt at h
    split at h
    · next hdata =>
      cases n with
      | zero =>
        obtain ⟨rfl, -⟩ := List.cons.inj h
        exact hdata
      | succ n => exact ih h
    · exact ih h

/-- **A connection is its handshake and then its stream.**  With a handshake that is pending for
`n` polls, the calls before the `n`-th one with data wait.  When it then hands over a stream, all
calls from that one on are the stream's, in order and with its answers; when it fails, that call
fails, and the calls after it find a handshake that has ended. -/
theorem tlsStream_run {n : Nat} {a a' a'' : A} (hpending : PendingFor tokio n a a')
    (calls : List IoCall) :
    (cutAt n calls).1 ++ (cutAt n calls).2 = calls ∧
    (∀ s, tokio.pollAccept a' = (.ready (.ok s), a'') →
      (run (poll tokio) calls (.handshaking a)).1 = (cutAt n calls).1.map waiting ++
          (run (fun call s => tokio.pollStream s call) (cutAt n calls).2 s).1 ∧
        ((cutAt n calls).2 ≠ [] → (run (poll tokio) calls (.handshaking a)).2 =
          .streaming (run (fun call s => tokio.pollStream s call) (cutAt n calls).2 s).2)) ∧
      ∀ e, tokio.pollAccept a' = (.ready (.error e), a'') →
        ∀ call rest, (cutAt n calls).2 = call :: rest →
          (run (poll tokio) calls (.handshaking a)).1 = (cutAt n calls).1.map waiting ++
            .ready .error :: (run (poll tokio) rest (.handshaking a'')).1 := by
  obtain ⟨hreplies, hstate⟩ := run_pending hpending calls
  refine ⟨cutAt_append n calls, ?_, ?_⟩
  · intro s hready
    have hstream : (cutAt n calls).2 ≠ [] →
        run (poll tokio) (cutAt n calls).2 (.handshaking a') =
          run (poll tokio) (cutAt n calls).2 (.streaming s) := by
      intro hne
      obtain ⟨call, rest, hrest⟩ := List.exists_cons_of_ne_nil hne
      have hdata := isData_of_cutAt hrest
      have hstep : poll tokio call (.handshaking a') = poll tokio call (.streaming s) := by
        unfold poll
        rw [if_pos hdata, pollData, hready]
        rfl
      rw [hrest, run_cons, run_cons, hstep]
    refine ⟨?_, fun hne => ?_⟩
    · rw [hreplies]
      by_cases hne : (cutAt n calls).2 = []
      · rw [hne]
        rfl
      · rw [hstream hne, run_streaming]
    · rw [hstate hne, hstream hne, run_streaming]
  · intro e hready call rest hrest
    have hdata := isData_of_cutAt hrest
    have hstep : poll tokio call (.handshaking a') = (.ready .error, .handshaking a'') := by
      rw [poll, if_pos hdata, pollData, hready]
    rw [hreplies, hrest, run_cons, hstep]

end Stream

def countdown : TokioRustls Nat (List UInt8) where
  pollAccept n := match n with
    | 0 => (.ready (.ok [1, 2]), 0)
    | n + 1 => (.pending, n)
  pollStream bytes call := match call with
    | .read n => (.ready (.bytes (bytes.take n)), bytes.drop n)
    | .write data => (.ready (.written data.length), bytes)
    | .flush | .shutdown => (.ready .done, bytes)

theorem tlsStream_run_countdown :
    (run (poll countdown) [.read 1, .flush, .read 1, .read 1] (.handshaking 1)).1 =
      [.pending, .ready .done, .ready (.bytes [1]), .ready (.bytes [2])] :=
  ((tlsStream_run (.succ rfl (.zero 0)) [.read 1, .flush, .read 1, .read 1]).2.1 [1, 2] rfl).1

end SpaServer.Tls
