import Janus.KeyIsolation
import Janus.Lib.Run
import Janus.PortalServer
import Janus.SessionTokens

/-!
# Sessions over whole runs

The portal keeps no sessions: a token that it signed is valid until it expires. In every run in
which nobody else signs with the secret, a request for an administrative route is served exactly
when it presents the token of a grant to an administrator less than a day before
(`admin_answers`), and nothing else changes what the portal stores (`change_authorized`).
-/

namespace Janus.PortalServer

set_option autoImplicit false

open Auth (Denied bearerToken expiry)
open Startup (Config)

/-- The grant is a token for its user and role. -/
def Grant.Issued (p : Portal) (g : Grant) : Prop :=
  p.authManager.generateJWT p.sessions g.username g.role g.grantedAt = .ok g.token

/-- The credentials of the local administrator, sent to the login. -/
structure LocalLogin (p : Portal) (e : Exchanged) (g : Grant) : Prop where
  enabled : p.config.adminPassword ≠ []
  post : e.request.method = "POST".toList
  credentials : decodeBody decodeLogin e.request = some ⟨p.config.adminUsername, p.config.adminPassword⟩
  user : g.username = p.config.adminUsername
  role : g.role = "admin".toList
  shown : e.response = loginResponse g.token g.username

/-- A callback of a configured provider, with the state of the browser's own login. -/
structure SignedOn (p : Portal) (e : Exchanged) (g : Grant) : Prop where
  configured : p.config.oidcIssuer ≠ []
  state : stateMatches e.request = true
  role : g.role = ssoRole p.config
  shown : e.response = signedOn g.token g.username

structure GrantedBy (p : Portal) (e : Exchanged) (g : Grant) : Prop where
  issued : g.Issued p
  atOnce : g.grantedAt = e.now
  origin : (route p.demo e.request = some .login ∧ LocalLogin p e g) ∨
    (route p.demo e.request = some .ssoCallback ∧ SignedOn p e g)

theorem handleLogin_grant {p : Portal} {now : Nat} {r : Request} {g : Grant}
    (h : (handleLogin p now r).2 = some g) :
    g.Issued p ∧ g.grantedAt = now ∧ LocalLogin p ⟨r, now, (handleLogin p now r).1, some g⟩ g := by
  unfold handleLogin at h ⊢
  split at h
  · cases h
  · rename_i hpost
    rw [if_neg hpost]
    cases hd : decodeBody decodeLogin r with
    | none =>
      rw [hd] at h
      cases h
    | some l =>
      rw [hd] at h
      dsimp only at h ⊢
      split at h
      · cases h
      · rename_i hpass
        rw [if_neg hpass]
        split at h
        · rename_i hcred
          rw [if_pos hcred]
          simp only [Bool.and_eq_true, decide_eq_true_eq] at hcred
          cases hg : p.authManager.generateJWT p.sessions p.config.adminUsername "admin".toList now with
          | error e =>
            rw [hg] at h
            cases h
          | ok token =>
            rw [hg] at h
            cases h
            refine ⟨hg, rfl, hpass, not_not.mp hpost, ?_, rfl, rfl, rfl⟩
            rw [hd, ← hcred.1, ← hcred.2]
        · cases h

theorem signOn_grant {c : Config} {a : Auth.AuthManager} {lib : OAuth.JWT} {sessions : Auth.JWT}
    {idp : IdentityProvider} {now : Nat} {idToken : Str} {cache : KeyCache} {g : Grant}
    (h : (signOn c a lib sessions idp now idToken cache).1.2 = some g) :
    a.generateJWT sessions g.username g.role now = .ok g.token ∧ g.grantedAt = now ∧
      g.role = ssoRole c ∧
      (signOn c a lib sessions idp now idToken cache).1.1 = signedOn g.token g.username := by
  unfold signOn at h ⊢
  generalize verifyIDToken c lib idp now idToken [] cache = verified at h ⊢
  obtain ⟨_ | claims, cache'⟩ := verified
  · cases h
  · dsimp only at h ⊢
    cases hg : a.generateJWT sessions (ssoUsername claims) (ssoRole c) now with
    | error e =>
      rw [hg] at h
      cases h
    | ok token =>
      rw [hg] at h
      cases h
      exact ⟨hg, rfl, rfl, rfl⟩

theorem handleSSOCallback_grant {p : Portal} {idp : IdentityProvider} {now : Nat} {r : Request}
    {cache : KeyCache} {g : Grant}
    (h : (handleSSOCallback p.config p.authManager p.idTokens p.sessions idp now r cache).1.2 = some g) :
    g.Issued p ∧ g.grantedAt = now ∧ SignedOn p
      ⟨r, now, (handleSSOCallback p.config p.authManager p.idTokens p.sessions idp now r cache).1.1,
        some g⟩ g := by
  unfold handleSSOCallback at h ⊢
  split at h
  · cases h
  · rename_i hissuer
    split at h
    · cases h
    · rename_i hcode
      split at h
      · cases h
      · rename_i hstate
        rw [if_neg hissuer, if_neg hcode, if_neg hstate]
        cases hx : exchange p.config idp r (r.query "code") with
        | error e =>
          rw [hx] at h
          cases h
        | ok idToken =>
          rw [hx] at h
          dsimp only at h ⊢
          obtain ⟨hgen, hat, hrole, hshown⟩ := signOn_grant h
          have hissued : g.Issued p := by
            unfold Grant.Issued
            rw [hat]
            exact hgen
          exact ⟨hissued, hat, hissuer, by simpa using hstate, hrole, hshown⟩

/-- The statuses of the handlers behind the middleware. -/
def handled : List Nat := [200, 204, 400, 405, 500]

/-- An answer as the handlers behind the middleware give it. -/
def Plain (resp : Response) : Prop := resp.status ∈ handled ∧ resp.setCookie = none

theorem executed_plain (env : Env) (s : State) (call : Except Str PortalDeletes.StoreCall) :
    Plain (executed env s call).2 := by
  unfold executed PortalDeletes.respond
  cases call with
  | error msg => simp [handled, Plain]
  | ok call =>
    dsimp only
    generalize call.exec env.faults s.stores = done
    obtain ⟨s', _ | msg⟩ := done
    · simp [handled, Plain]
    · simp [handled, Plain]

theorem committed_plain {s : State} {result : Except Storage.StoreError Storage.DB} {resp : Response}
    (h : Plain resp) : Plain (committed s result resp).2 := by
  cases result with
  | error e => simp [committed, internalError, httpError, handled, Plain]
  | ok db => exact h

theorem handleConnections_plain (env : Env) (r : Request) (s : State) :
    Plain (handleConnections env r s).2 := by
  unfold handleConnections
  split
  · split <;> simp [internalError, httpError, encoded, handled, Plain]
  · split
    · split
      · simp [invalidPayload, httpError, handled, Plain]
      · exact committed_plain (by simp [encoded, handled, Plain])
    · split
      · split
        · simp [missingID, httpError, handled, Plain]
        · exact committed_plain (by simp [noContent, handled, Plain])
      · simp [methodNotAllowed, httpError, handled, Plain]

theorem handleEndpoints_plain (env : Env) (r : Request) (s : State) :
    Plain (handleEndpoints env r s).2 := by
  unfold handleEndpoints
  split
  · split <;> simp [internalError, httpError, encoded, handled, Plain]
  · split
    · split
      · simp [invalidPayload, httpError, handled, Plain]
      · exact committed_plain (by simp [encoded, handled, Plain])
    · split
      · split
        · simp [missingID, httpError, handled, Plain]
        · exact committed_plain (by simp [noContent, handled, Plain])
      · simp [methodNotAllowed, httpError, handled, Plain]

theorem handleVault_plain (env : Env) (r : Request) (s : State) :
    Plain (handleVault env r s).2 := by
  unfold handleVault
  split
  · split <;> simp [httpError, encoded, handled, Plain]
  · split
    · split
      · simp [httpError, handled, Plain]
      · dsimp only
        split <;> simp [httpError, handled, Plain]
    · split
      · exact executed_plain env s _
      · simp [methodNotAllowed, httpError, handled, Plain]

theorem handleTokens_plain (env : Env) (r : Request) (s : State) :
    Plain (handleTokens env r s).2 := by
  unfold handleTokens
  split
  · split <;> simp [internalError, httpError, encoded, handled, Plain]
  · split
    · split
      · simp [invalidPayload, httpError, handled, Plain]
      · split
        · simp [httpError, handled, Plain]
        · exact committed_plain (by simp [encoded, handled, Plain])
    · split
      · exact executed_plain env s _
      · simp [methodNotAllowed, httpError, handled, Plain]

theorem importResponse_status (resp : Portal.ImportResponse) : resp.status ∈ handled := by
  cases resp <;> simp [Portal.ImportResponse.status, handled]

/-- No handler behind the middleware answers as the middleware does. -/
theorem handleAdmin_plain (p : Portal) (env : Env) (r : Request) (s : State) (rt : Route) :
    Plain (handleAdmin p env r s rt).2 := by
  cases rt with
  | connections => exact handleConnections_plain env r s
  | endpoints => exact handleEndpoints_plain env r s
  | importOpenAPI => exact ⟨importResponse_status _, rfl⟩
  | vault => exact handleVault_plain env r s
  | tokens => exact handleTokens_plain env r s
  | logs =>
    simp only [handleAdmin, handleAuditLogs]
    split
    · simp [methodNotAllowed, httpError, handled, Plain]
    · split <;> simp [internalError, httpError, encoded, handled, Plain]
  | settings =>
    simp only [handleAdmin, handleSettings]
    split <;> simp [methodNotAllowed, httpError, encoded, handled, Plain]
  | operationalStats =>
    simp only [handleAdmin, handleOperationalStats]
    split
    · simp [methodNotAllowed, httpError, handled, Plain]
    · split <;> simp [internalError, httpError, encoded, handled, Plain]
  | openAPI =>
    simp only [handleAdmin, handleOpenAPI]
    split
    · simp [methodNotAllowed, httpError, handled, Plain]
    · split <;> simp [internalError, httpError, encoded, handled, Plain]
  | login => simp [handleAdmin, handled, Plain]
  | ssoLogin => simp [handleAdmin, handled, Plain]
  | ssoCallback => simp [handleAdmin, handled, Plain]
  | mockTradeVolume => simp [handleAdmin, handled, Plain]
  | mockNonCashCollateral => simp [handleAdmin, handled, Plain]
  | frontend => simp [handleAdmin, handled, Plain]

/-- A request for an administrative route. -/
def ForAdmin (p : Portal) (r : Request) : Prop := ∃ rt, route p.demo r = some rt ∧ rt.admin = true

theorem serve_denied {p : Portal} {env : Env} {r : Request} {s : State} {d : Denied}
    (hroute : ForAdmin p r)
    (h : p.authManager.authorizeAdmin p.sessions env.now r.authorization = .error d) :
    serve p env r s = (s, deniedResponse d, none) := by
  obtain ⟨rt, hrt, hadmin⟩ := hroute
  unfold serve
  rw [hrt]
  cases rt with
  | login | ssoLogin | ssoCallback | mockTradeVolume | mockNonCashCollateral | frontend => cases hadmin
  | connections | endpoints | importOpenAPI | vault | logs | settings | operationalStats | tokens
  | openAPI => simp only [h, Route.admin, if_true]

theorem serve_authorized {p : Portal} {env : Env} {r : Request} {s : State} {claims : Auth.Claims}
    {rt : Route} (hroute : route p.demo r = some rt) (hadmin : rt.admin = true)
    (h : p.authManager.authorizeAdmin p.sessions env.now r.authorization = .ok claims) :
    serve p env r s = ((handleAdmin p env r s rt).1, (handleAdmin p env r s rt).2, none) := by
  unfold serve
  rw [hroute]
  cases rt with
  | login | ssoLogin | ssoCallback | mockTradeVolume | mockNonCashCollateral | frontend => cases hadmin
  | connections | endpoints | importOpenAPI | vault | logs | settings | operationalStats | tokens
  | openAPI => simp only [h, Route.admin, if_true]

/-- What is stored changes on administrative routes only. -/
theorem serve_stores {p : Portal} {env : Env} {r : Request} {s : State} (h : ¬ ForAdmin p r) :
    (serve p env r s).1.stores = s.stores := by
  unfold serve
  cases hrt : route p.demo r with
  | none => rfl
  | some rt =>
    cases rt with
    | login | ssoLogin | ssoCallback | mockTradeVolume | mockNonCashCollateral | frontend => rfl
    | connections | endpoints | importOpenAPI | vault | logs | settings | operationalStats | tokens
    | openAPI => exact absurd ⟨_, hrt, rfl⟩ h

theorem serve_grant {p : Portal} {env : Env} {r : Request} {s : State} {g : Grant}
    (h : (serve p env r s).2.2 = some g) :
    GrantedBy p ⟨r, env.now, (serve p env r s).2.1, (serve p env r s).2.2⟩ g := by
  by_cases hadmin : ForAdmin p r
  · cases ha : p.authManager.authorizeAdmin p.sessions env.now r.authorization with
    | error d =>
      rw [serve_denied hadmin ha] at h
      cases h
    | ok claims =>
      obtain ⟨rt, hrt, hrta⟩ := hadmin
      rw [serve_authorized hrt hrta ha] at h
      cases h
  · unfold serve at h ⊢
    cases hrt : route p.demo r with
    | none =>
      rw [hrt] at h
      cases h
    | some rt =>
      rw [hrt] at h
      cases rt with
      | login =>
        have hgrant : (handleLogin p env.now r).2 = some g := h
        obtain ⟨hissued, hat, hlogin⟩ := handleLogin_grant hgrant
        dsimp only
        rw [hgrant]
        exact ⟨hissued, hat, .inl ⟨hrt, hlogin⟩⟩
      | ssoCallback =>
        have hgrant : (handleSSOCallback p.config p.authManager p.idTokens p.sessions env.idp env.now r
          s.keys).1.2 = some g := h
        obtain ⟨hissued, hat, hsso⟩ := handleSSOCallback_grant hgrant
        dsimp only
        rw [hgrant]
        exact ⟨hissued, hat, .inr ⟨hrt, hsso⟩⟩
      | ssoLogin | mockTradeVolume | mockNonCashCollateral | frontend => cases h
      | connections | endpoints | importOpenAPI | vault | logs | settings | operationalStats | tokens
      | openAPI => exact absurd ⟨_, hrt, rfl⟩ hadmin

/-- The portal with everything that it has answered. -/
structure System where
  state : State
  answered : List Exchanged

def System.act (p : Portal) (sys : System) (a : Action) : System × List Exchanged :=
  (⟨(step p sys.state a).1, sys.answered ++ (step p sys.state a).2⟩, (step p sys.state a).2)

def start (s : State) : System := ⟨s, []⟩

def System.answer (p : Portal) (sys : System) (a : Action) : Response :=
  (serve p a.env a.request sys.state).2.1

theorem act_eq {p : Portal} {sys : System} {a : Action} {s' : State} {resp : Response}
    {grant : Option Grant} (h : serve p a.env a.request sys.state = (s', resp, grant)) :
    sys.act p a = (⟨s', sys.answered ++ [⟨a.request, a.env.now, resp, grant⟩]⟩,
      [⟨a.request, a.env.now, resp, grant⟩]) := by
  simp only [System.act, step, h]

/-- The date of a session that is granted now can be written into a token. -/
def Timely (now : Nat) : Prop := now + Auth.day < 2 ^ 53 * Auth.second

/-- A token that is signed with the secret has been handed out: nobody else signs with it. -/
def Unforged (p : Portal) (sys : System) (a : Action) : Prop :=
  p.sessions.verifies (bearerToken a.request.authorization) Auth.hs256.alg p.config.jwtSecret = true →
    ∃ e ∈ sys.answered, ∃ g, e.grant = some g ∧ g.token = bearerToken a.request.authorization

structure Admitted (p : Portal) (sys : System) (a : Action) : Prop where
  unforged : Unforged p sys a
  timely : Timely a.env.now

/-- The sessions that were handed out are those that the answers show. -/
structure Recorded (p : Portal) (sys : System) : Prop where
  granted : ∀ e ∈ sys.answered, ∀ g, e.grant = some g → GrantedBy p e g
  timely : ∀ e ∈ sys.answered, Timely e.now

/-- A session that was handed out under the token and has not expired. -/
structure LiveGrant (sys : System) (token : Str) (now : Nat) (g : Grant) : Prop where
  granted : ∃ e ∈ sys.answered, e.grant = some g
  token : g.token = token
  live : now < expiry g.grantedAt

/-- The date of expiry is cut to the second. -/
theorem LiveGrant.within_a_day {sys : System} {token : Str} {now : Nat} {g : Grant}
    (h : LiveGrant sys token now g) : now < g.grantedAt + Auth.day :=
  h.live.trans_le (Auth.expiry_bounds g.grantedAt).1

variable {p : Portal} {sys : System} {a : Action}

theorem recorded_start (p : Portal) (s : State) : Recorded p (start s) :=
  ⟨fun _ h => absurd h List.not_mem_nil, fun _ h => absurd h List.not_mem_nil⟩

theorem Recorded.act (h : Recorded p sys) (ha : Timely a.env.now) : Recorded p (sys.act p a).1 := by
  constructor
  · intro e he g hg
    rcases List.mem_append.mp he with hold | hnew
    · exact h.granted e hold g hg
    · cases List.mem_singleton.mp hnew
      exact serve_grant hg
  · intro e he
    rcases List.mem_append.mp he with hold | hnew
    · exact h.timely e hold
    · cases List.mem_singleton.mp hnew
      exact ha

theorem recorded_final {as : List Action} {s : State}
    (has : Run.Along (System.act p) (Admitted p) (start s) as) :
    Recorded p (Run.final (System.act p) (start s) as) :=
  Run.inv_final (fun _ _ h ha => h.act ha.timely) as _ (recorded_start p s) has

/-- A token that was handed out carries the claims of its session. -/
theorem carries_of_granted (hlib : p.sessions.Lawful) (h : Recorded p sys) {g : Grant}
    (hg : ∃ e ∈ sys.answered, e.grant = some g) :
    g.token ≠ [] ∧ p.sessions.Carries g.token p.authManager.jwtSecret
      (Auth.sessionClaims g.username g.role g.grantedAt) := by
  obtain ⟨e, he, heg⟩ := hg
  have hby := h.granted e he g heg
  have htime : Timely g.grantedAt := hby.atOnce ▸ h.timely e he
  exact Auth.carries_generateJWT hlib htime hby.issued

/-- Whom a request is authenticated as. -/
theorem authenticate_iff (hlib : p.sessions.Lawful) (h : Recorded p sys) (ha : Unforged p sys a)
    (claims : Auth.Claims) :
    p.authManager.authenticate p.sessions a.env.now a.request.authorization = .ok claims ↔
      ∃ g, LiveGrant sys (bearerToken a.request.authorization) a.env.now g ∧
        claims = Auth.sessionClaims g.username g.role g.grantedAt := by
  constructor
  · intro hok
    obtain ⟨_, hv⟩ := Auth.authenticate_ok hok
    obtain ⟨hparsed, hsigned, _⟩ := Auth.validateJWT_ok hlib hv
    obtain ⟨e, he, g, hg, htoken⟩ := ha hsigned
    obtain ⟨_, hcarries⟩ := carries_of_granted hlib h ⟨e, he, hg⟩
    rw [htoken] at hcarries
    have hsame : claims = Auth.sessionClaims g.username g.role g.grantedAt :=
      congrArg Auth.Token.claims (Except.ok.inj (hparsed.symm.trans hcarries.parsed))
    rw [hsame] at hv
    exact ⟨g, ⟨⟨e, he, hg⟩, htoken, (Auth.validateJWT_carries hlib hcarries).mp hv⟩, hsame⟩
  · rintro ⟨g, hg, rfl⟩
    obtain ⟨hne, hcarries⟩ := carries_of_granted hlib h hg.granted
    rw [hg.token] at hne hcarries
    exact Auth.authenticate_of_ok hne ((Auth.validateJWT_carries hlib hcarries).mpr hg.live)

/-- Who is let in on an administrative route. -/
theorem authorizeAdmin_iff (hlib : p.sessions.Lawful) (h : Recorded p sys) (ha : Unforged p sys a) :
    (∃ claims, p.authManager.authorizeAdmin p.sessions a.env.now a.request.authorization = .ok claims) ↔
      ∃ g, LiveGrant sys (bearerToken a.request.authorization) a.env.now g ∧ g.role = "admin".toList := by
  constructor
  · rintro ⟨claims, hc⟩
    obtain ⟨hauth, hrole⟩ := Auth.authorizeAdmin_ok.mp hc
    obtain ⟨g, hg, rfl⟩ := (authenticate_iff hlib h ha claims).mp hauth
    exact ⟨g, hg, hrole⟩
  · rintro ⟨g, hg, hrole⟩
    exact ⟨_, Auth.authorizeAdmin_ok.mpr ⟨(authenticate_iff hlib h ha _).mpr ⟨g, hg, rfl⟩, hrole⟩⟩

/-- The three kinds of answers on an administrative route. -/
structure Answers (sys : System) (a : Action) (resp : Response) : Prop where
  served : resp.status ∈ handled ↔
    ∃ g, LiveGrant sys (bearerToken a.request.authorization) a.env.now g ∧ g.role = "admin".toList
  unauthorized : resp.status = 401 ↔
    ∀ g, ¬ LiveGrant sys (bearerToken a.request.authorization) a.env.now g
  forbidden : resp.status = 403 ↔
    ∃ g, LiveGrant sys (bearerToken a.request.authorization) a.env.now g ∧ g.role ≠ "admin".toList

theorem LiveGrant.role_eq (hlib : p.sessions.Lawful) (h : Recorded p sys) (ha : Unforged p sys a)
    {g g' : Grant} (hg : LiveGrant sys (bearerToken a.request.authorization) a.env.now g)
    (hg' : LiveGrant sys (bearerToken a.request.authorization) a.env.now g') : g.role = g'.role := by
  have hwho := authenticate_iff hlib h ha
  have hsame := Except.ok.inj (((hwho _).mpr ⟨g, hg, rfl⟩).symm.trans ((hwho _).mpr ⟨g', hg', rfl⟩))
  exact congrArg Auth.Claims.role hsame

/-- A request without a live session is unauthorized, one with a session of another role is
forbidden. -/
theorem authorizeAdmin_error (hlib : p.sessions.Lawful) (h : Recorded p sys) (ha : Unforged p sys a)
    {d : Denied}
    (hd : p.authManager.authorizeAdmin p.sessions a.env.now a.request.authorization = .error d) :
    (d = .unauthorized ∧
      ∀ g, ¬ LiveGrant sys (bearerToken a.request.authorization) a.env.now g) ∨
    (d = .forbidden ∧
      ∃ g, LiveGrant sys (bearerToken a.request.authorization) a.env.now g ∧ g.role ≠ "admin".toList) := by
  have hwho := authenticate_iff hlib h ha
  unfold Auth.AuthManager.authorizeAdmin at hd
  cases hw : p.authManager.authenticate p.sessions a.env.now a.request.authorization with
  | error d' =>
    rw [hw] at hd
    cases hd
    refine .inl ⟨Auth.authenticate_error hw, ?_⟩
    intro g hg
    cases hw.symm.trans ((hwho _).mpr ⟨g, hg, rfl⟩)
  | ok claims =>
    rw [hw] at hd
    dsimp only at hd
    split at hd
    · rename_i hrole
      cases hd
      obtain ⟨g, hg, rfl⟩ := (hwho claims).mp hw
      exact .inr ⟨rfl, g, hg, hrole⟩
    · cases hd

/-- A request for an administrative route is answered by the sessions that were handed out. -/
theorem Recorded.answers (hlib : p.sessions.Lawful) (hrec : Recorded p sys) (ha : Unforged p sys a)
    (hroute : ForAdmin p a.request) : Answers sys a (sys.answer p a) := by
  cases hauth : p.authManager.authorizeAdmin p.sessions a.env.now a.request.authorization with
  | ok claims =>
    obtain ⟨rt, hrt, hadmin⟩ := hroute
    obtain ⟨g, hg, hrole⟩ := (authorizeAdmin_iff hlib hrec ha).mp ⟨claims, hauth⟩
    have hstatus : (sys.answer p a).status ∈ handled := by
      unfold System.answer
      rw [serve_authorized hrt hadmin hauth]
      exact (handleAdmin_plain p a.env a.request sys.state rt).1
    have hnot {n : Nat} (hn : n ∉ handled) : (sys.answer p a).status ≠ n := fun h => hn (h ▸ hstatus)
    refine ⟨⟨fun _ => ⟨g, hg, hrole⟩, fun _ => hstatus⟩, ?_, ?_⟩
    · exact ⟨fun h401 => absurd h401 (hnot (by decide)), fun hnone => absurd hg (hnone g)⟩
    · refine ⟨fun h403 => absurd h403 (hnot (by decide)), ?_⟩
      rintro ⟨g', hg', hrole'⟩
      exact absurd ((hg'.role_eq hlib hrec ha hg).trans hrole) hrole'
  | error d =>
    have hanswer : sys.answer p a = deniedResponse d := by
      unfold System.answer
      rw [serve_denied hroute hauth]
    rw [hanswer]
    rcases authorizeAdmin_error hlib hrec ha hauth with ⟨rfl, hno⟩ | ⟨rfl, g, hg, hrole⟩
    · exact ⟨⟨fun hh => absurd hh (by decide), fun ⟨g, hg, _⟩ => absurd hg (hno g)⟩,
        ⟨fun _ => hno, fun _ => rfl⟩,
        ⟨fun hh => absurd hh (by decide), fun ⟨g, hg, _⟩ => absurd hg (hno g)⟩⟩
    · refine ⟨⟨fun hh => absurd hh (by decide), ?_⟩,
        ⟨fun hh => absurd hh (by decide), fun hno => absurd hg (hno g)⟩,
        ⟨fun _ => ⟨g, hg, hrole⟩, fun _ => rfl⟩⟩
      rintro ⟨g', hg', hrole'⟩
      exact absurd ((hg.role_eq hlib hrec ha hg').trans hrole') hrole

/-- In every run a request for an administrative route is answered by the sessions that were
handed out before. -/
theorem admin_answers (hlib : p.sessions.Lawful) (s : State) (as : List Action)
    (has : Run.Along (System.act p) (Admitted p) (start s) as)
    (ha : Admitted p (Run.final (System.act p) (start s) as) a) (hroute : ForAdmin p a.request) :
    Answers (Run.final (System.act p) (start s) as) a
      ((Run.final (System.act p) (start s) as).answer p a) :=
  (recorded_final has).answers hlib ha.unforged hroute

theorem handleLogin_ok {p : Portal} {now : Nat} {r : Request} {token : Str}
    (hpost : r.method = "POST".toList) (hpass : p.config.adminPassword ≠ [])
    (hcred : decodeBody decodeLogin r = some ⟨p.config.adminUsername, p.config.adminPassword⟩)
    (htoken : p.authManager.generateJWT p.sessions p.config.adminUsername "admin".toList now = .ok token) :
    handleLogin p now r = (loginResponse token p.config.adminUsername,
      some ⟨token, p.config.adminUsername, "admin".toList, now⟩) := by
  unfold handleLogin
  rw [if_neg (not_not.mpr hpost), hcred]
  dsimp only
  rw [if_neg hpass, if_pos (by simp), htoken]

/-- The settings of a portal whose administrator has a password. -/
def localSettings : Startup.Environment := fun k => lookup k
  [("JWT_SECRET".toList, "0123456789abcdef0123456789abcdef".toList),
    ("GATEWAY_TOKEN".toList, "fedcba9876543210fedcba9876543210".toList),
    ("ADMIN_PASSWORD".toList, "a long password".toList)]

def portalOf (settings : Startup.Environment) : Portal where
  config := Startup.readConfig settings fun _ => none
  demo := false
  idTokens := OAuth.rs256
  sessions := Auth.hs256Package
  yaml := fun _ => none
  idna := fun _ => none

def localPortal : Portal := portalOf localSettings

/-- An outside in which nothing fails. -/
def plainEnv (now : Nat) : Env where
  now := now
  faults := ⟨none, false⟩
  connectionReads := none
  endpointReads := none
  tokenReads := none
  logReads := none
  vaultReads := none
  newID := "new".toList
  random := []
  nonce := []
  keyOrder := ⟨id, fun _ => .refl _⟩
  logOrder := Storage.stableOrder
  showTime := fun _ => []
  imports := ⟨"c".toList, fun _ => "e".toList, fun _ => false⟩
  idp := ⟨fun _ _ => .error [], fun _ => .error []⟩
  probes := fun _ => ⟨fun _ => .ok [], fun _ _ => none, fun _ => false, fun _ => .broken, 0⟩
  activeSessions := 0
  activeQueries := 0
  reference := ⟨id, listedOrder⟩
  redirectStatus := 307

def requestTo (method target authorization body : Str) : Request where
  method := method
  url := (Url.received target).getD Url.empty
  host := "gateway".toList
  tls := false
  authorization := authorization
  stateCookie := none
  body := some body

def loginAction : Action := ⟨plainEnv 0, requestTo "POST".toList "/api/auth/login".toList []
  "\x7b\"username\":\"admin\",\"password\":\"a long password\"\x7d".toList⟩

def adminToken : Str :=
  Auth.signHS256 (Auth.sessionClaims "admin".toList "admin".toList 0) localPortal.config.jwtSecret

/-- A connection is saved an hour after the login. -/
def saveAction : Action := ⟨plainEnv (3600 * Auth.second), requestTo "POST".toList
  "/api/connections".toList ("Bearer ".toList ++ adminToken)
  "\x7b\"id\":\"c1\",\"name\":\"billing\"\x7d".toList⟩

def emptyState : State := ⟨⟨.local [], .empty false⟩, [], []⟩

/-- The portal after the login. -/
def afterLogin : System := Run.final (System.act localPortal) (start emptyState) [loginAction]

theorem login_grant : serve localPortal loginAction.env loginAction.request emptyState =
    (emptyState, loginResponse adminToken "admin".toList,
      some ⟨adminToken, "admin".toList, "admin".toList, 0⟩) := by
  have hroute : route localPortal.demo loginAction.request = some .login := by decide +kernel
  have hcred : decodeBody decodeLogin loginAction.request =
      some ⟨localPortal.config.adminUsername, localPortal.config.adminPassword⟩ := by decide +kernel
  have hpass : localPortal.config.adminPassword ≠ [] := by decide
  have htoken : localPortal.authManager.generateJWT localPortal.sessions
      localPortal.config.adminUsername "admin".toList 0 = .ok adminToken := rfl
  unfold serve
  rw [hroute]
  dsimp only
  rw [show loginAction.env.now = 0 from rfl, handleLogin_ok rfl hpass hcred htoken]
  rfl

theorem admitted_login : Run.Along (System.act localPortal) (Admitted localPortal) (start emptyState)
    [loginAction] := by
  refine ⟨⟨?_, ?_⟩, trivial⟩
  · intro h
    exact absurd h (by decide)
  · unfold Timely
    decide

theorem bearerToken_save : bearerToken saveAction.request.authorization = adminToken :=
  Auth.bearerToken_bearer (Auth.isSpace_signHS256 _ _)

theorem answered_afterLogin : ∃ e ∈ afterLogin.answered,
    e.grant = some ⟨adminToken, "admin".toList, "admin".toList, 0⟩ := by
  have hact : (start emptyState).act localPortal loginAction = _ := act_eq login_grant
  have hfinal : afterLogin = ((start emptyState).act localPortal loginAction).1 := rfl
  rw [hfinal, hact]
  exact ⟨_, List.mem_singleton_self _, rfl⟩

/-- Whoever has the token may come back with it. -/
theorem admitted_afterLogin {a : Action} (hbearer : bearerToken a.request.authorization = adminToken)
    (htime : Timely a.env.now) : Admitted localPortal afterLogin a := by
  refine ⟨?_, htime⟩
  intro _
  obtain ⟨e, he, hg⟩ := answered_afterLogin
  exact ⟨e, he, _, hg, hbearer.symm⟩

theorem timely_save : Timely saveAction.env.now := by
  unfold Timely
  decide

theorem admitted_save : Admitted localPortal afterLogin saveAction :=
  admitted_afterLogin bearerToken_save timely_save

theorem forAdmin_save : ForAdmin localPortal saveAction.request :=
  ⟨.connections, by decide +kernel, rfl⟩

theorem liveGrant_save : LiveGrant afterLogin (bearerToken saveAction.request.authorization)
    saveAction.env.now ⟨adminToken, "admin".toList, "admin".toList, 0⟩ :=
  ⟨answered_afterLogin, bearerToken_save.symm, by decide⟩

/-- An hour after the login its token is good for a change. -/
theorem admin_answers_save : (afterLogin.answer localPortal saveAction).status ∈ handled :=
  (admin_answers Auth.hs256Package_lawful emptyState [loginAction] admitted_login admitted_save
    forAdmin_save).served.mpr ⟨_, liveGrant_save, rfl⟩

/-- What is stored changes in an admitted step only for a live session of an administrator. -/
theorem stores_act (hlib : p.sessions.Lawful) (h : Recorded p sys) (ha : Unforged p sys a)
    (hchange : (sys.act p a).1.state.stores ≠ sys.state.stores) :
    ForAdmin p a.request ∧
      ∃ g, LiveGrant sys (bearerToken a.request.authorization) a.env.now g ∧ g.role = "admin".toList := by
  have hroute : ForAdmin p a.request := by
    by_contra hno
    exact hchange (serve_stores hno)
  refine ⟨hroute, (authorizeAdmin_iff hlib h ha).mp ?_⟩
  cases hauth : p.authManager.authorizeAdmin p.sessions a.env.now a.request.authorization with
  | ok claims => exact ⟨claims, rfl⟩
  | error d =>
    refine absurd ?_ hchange
    have hserve := serve_denied (s := sys.state) hroute hauth
    exact congrArg (fun x => State.stores x.1) hserve

/-- A session of an administrator comes from the local login, or from a provider whose users are
administrators by default. -/
theorem admin_origin (h : Recorded p sys) {g : Grant} (hg : ∃ e ∈ sys.answered, e.grant = some g)
    (hrole : g.role = "admin".toList) :
    ∃ e ∈ sys.answered, g.grantedAt = e.now ∧ (LocalLogin p e g ∨
      (SignedOn p e g ∧ p.config.oidcDefaultRole = "admin".toList)) := by
  obtain ⟨e, he, heg⟩ := hg
  have hby := h.granted e he g heg
  refine ⟨e, he, hby.atOnce, ?_⟩
  rcases hby.origin with ⟨_, hlogin⟩ | ⟨_, hsso⟩
  · exact .inl hlogin
  · refine .inr ⟨hsso, ?_⟩
    have hdefault : ssoRole p.config = "admin".toList := hsso.role.symm.trans hrole
    unfold ssoRole at hdefault
    split at hdefault
    · exact absurd hdefault (by decide)
    · exact hdefault

/-- Every change of what the portal stores, in every run, is asked for with a session that the
portal handed out to an administrator, less than a day before, on correct credentials. -/
theorem change_authorized (hlib : p.sessions.Lawful) (s : State) (as : List Action)
    (has : Run.Along (System.act p) (Admitted p) (start s) as)
    (ha : Admitted p (Run.final (System.act p) (start s) as) a)
    (hchange : (System.act p (Run.final (System.act p) (start s) as) a).1.state.stores ≠
      (Run.final (System.act p) (start s) as).state.stores) :
    ∃ e ∈ (Run.final (System.act p) (start s) as).answered, ∃ token,
      token = bearerToken a.request.authorization ∧ a.env.now < expiry e.now ∧
        ((p.config.adminPassword ≠ [] ∧ decodeBody decodeLogin e.request =
            some ⟨p.config.adminUsername, p.config.adminPassword⟩ ∧
            e.response = loginResponse token p.config.adminUsername) ∨
          (p.config.oidcDefaultRole = "admin".toList ∧ stateMatches e.request = true ∧
            ∃ username, e.response = signedOn token username)) := by
  have hrec := recorded_final has
  obtain ⟨_, g, hg, hrole⟩ := stores_act hlib hrec ha.unforged hchange
  obtain ⟨e, he, hat, horigin⟩ := admin_origin hrec hg.granted hrole
  refine ⟨e, he, g.token, hg.token, hat ▸ hg.live, ?_⟩
  rcases horigin with hlogin | ⟨hsso, hdefault⟩
  · exact .inl ⟨hlogin.enabled, hlogin.credentials, hlogin.user ▸ hlogin.shown⟩
  · exact .inr ⟨hdefault, hsso.state, g.username, hsso.shown⟩

theorem state_afterLogin : afterLogin.state = emptyState := by
  have hact : (start emptyState).act localPortal loginAction = _ := act_eq login_grant
  have hfinal : afterLogin = ((start emptyState).act localPortal loginAction).1 := rfl
  rw [hfinal, hact]

theorem handleAdmin_connections (p : Portal) (env : Env) (r : Request) (s : State) :
    handleAdmin p env r s .connections = handleConnections env r s := rfl

theorem rows_save : (handleConnections saveAction.env saveAction.request emptyState).1.stores.db.connections.rows.length =
    1 := by decide +kernel

theorem stores_save : (System.act localPortal afterLogin saveAction).1.state.stores ≠
    afterLogin.state.stores := by
  obtain ⟨claims, hauth⟩ := (authorizeAdmin_iff Auth.hs256Package_lawful (recorded_final admitted_login)
    admitted_save.unforged).mpr ⟨_, liveGrant_save, rfl⟩
  have hroute : route localPortal.demo saveAction.request = some .connections := by decide +kernel
  have hserve := serve_authorized (s := afterLogin.state) hroute rfl hauth
  have hact : afterLogin.act localPortal saveAction = _ := act_eq hserve
  rw [hact, handleAdmin_connections, state_afterLogin]
  dsimp only
  intro h
  have hrows := rows_save
  rw [h] at hrows
  cases hrows

/-- The connection that is saved an hour after the login. -/
theorem change_authorized_save : ∃ e ∈ afterLogin.answered, ∃ token,
    token = bearerToken saveAction.request.authorization ∧ saveAction.env.now < expiry e.now ∧
      ((localPortal.config.adminPassword ≠ [] ∧ decodeBody decodeLogin e.request =
          some ⟨localPortal.config.adminUsername, localPortal.config.adminPassword⟩ ∧
          e.response = loginResponse token localPortal.config.adminUsername) ∨
        (localPortal.config.oidcDefaultRole = "admin".toList ∧ stateMatches e.request = true ∧
          ∃ username, e.response = signedOn token username)) := by
  have hchange := stores_save
  have hadmitted := admitted_save
  unfold afterLogin at hchange hadmitted ⊢
  exact change_authorized (a := saveAction) Auth.hs256Package_lawful emptyState [loginAction]
    admitted_login hadmitted hchange

/-- Without a local login, and with a provider whose users are no administrators by default,
nothing that the portal stores ever changes. -/
theorem locked_portal (hlib : p.sessions.Lawful) (hpassword : p.config.adminPassword = [])
    (hdefault : p.config.oidcDefaultRole ≠ "admin".toList) (s : State) (as : List Action)
    (has : Run.Along (System.act p) (Admitted p) (start s) as) :
    (Run.final (System.act p) (start s) as).state.stores = s.stores := by
  have hstep (sys : System) (a : Action) (h : Recorded p sys ∧ sys.state.stores = s.stores)
      (ha : Admitted p sys a) :
      Recorded p (sys.act p a).1 ∧ (sys.act p a).1.state.stores = s.stores := by
    obtain ⟨hrec, hsame⟩ := h
    refine ⟨hrec.act ha.timely, ?_⟩
    by_contra hne
    obtain ⟨_, g, hg, hrole⟩ := stores_act hlib hrec ha.unforged (hsame ▸ hne)
    obtain ⟨e, _, _, hlogin | ⟨_, hadmin⟩⟩ := admin_origin hrec hg.granted hrole
    · exact hlogin.enabled hpassword
    · exact hdefault hadmin
  exact (Run.inv_final hstep as (start s) ⟨recorded_start p s, rfl⟩ has).2

/-- A portal that has no password for the administrator. -/
def lockedPortal : Portal :=
  portalOf fun k => if k = "ADMIN_PASSWORD".toList then none else localSettings k

theorem locked_portal_login :
    (Run.final (System.act lockedPortal) (start emptyState) [loginAction]).state.stores =
      emptyState.stores := by
  refine locked_portal Auth.hs256Package_lawful (by decide) (by decide) emptyState [loginAction] ?_
  refine ⟨⟨?_, ?_⟩, trivial⟩
  · intro h
    exact absurd h (by decide)
  · unfold Timely
    decide

end Janus.PortalServer
