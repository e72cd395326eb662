import Janus.PortalSessions

/-!
# Browsers that sign on

Browsers and other clients send requests to the portal, whose answers change the cookies of
the browsers; requests and answers overtake each other on the way. A browser's code is redeemed
under a state that the portal gave to this browser, in answer to a login of its own, less than
five minutes before (`redeemed_own_login`); a callback that carries the state of another client's
login is refused (`injected_refused`); and once a browser has taken the answer to a callback, none
that it sends later is redeemed under the same state (`state_redeemed_once`).
-/

namespace Janus.SignOnBrowsers

set_option autoImplicit false

open PortalServer

/-- The cookie in a browser, until it expires. -/
structure Kept where
  value : Str
  expires : Nat
  deriving DecidableEq

variable {B : Type}

/-- A request of a browser, or of a client that is none and sends what cookie it likes. -/
structure Sent (B : Type) where
  client : Option B
  request : Request
  sentAt : Nat

structure Answered (B : Type) where
  sent : Sent B
  response : Response
  grant : Option Grant

structure Receipt (B : Type) where
  answer : Answered B
  receivedAt : Nat

structure Net (B : Type) where
  state : State
  clock : Nat
  kept : B → Option Kept
  requests : List (Sent B)
  answers : List (Answered B)
  answered : List (Answered B)
  received : List (Receipt B)

inductive Move (B : Type) where
  /-- A browser attaches its cookie or leaves it out, as the rules of its origin have it. -/
  | send (b : B) (r : Request) (attached : Bool)
  | forge (r : Request)
  | serve (i : Nat) (env : Env)
  | receive (i : Nat)

/-- What happens next, and how long after what came before. -/
structure Step (B : Type) where
  delay : Nat
  move : Move B

def keepCookie (now : Nat) (c : Cookie) : Option Kept :=
  if 0 < c.maxAge then some ⟨c.value, now + c.maxAge.toNat * Auth.second⟩ else none

def attach (kept : Option Kept) (now : Nat) (attached : Bool) : Option Str :=
  if attached then (kept.filter fun k => now < k.expires).map Kept.value else none

def Net.send (n : Net B) (b : B) (r : Request) (attached : Bool) : Net B :=
  let r := { r with stateCookie := attach (n.kept b) n.clock attached }
  { n with requests := n.requests ++ [⟨some b, r, n.clock⟩] }

def Net.forge (n : Net B) (r : Request) : Net B :=
  { n with requests := n.requests ++ [⟨none, r, n.clock⟩] }

/-- The portal answers the request that is at this place among those on their way. -/
def Net.serve (p : Portal) (n : Net B) (i : Nat) (q : Sent B) (env : Env) : Net B :=
  let (state, response, grant) := PortalServer.serve p { env with now := n.clock } q.request n.state
  let answer : Answered B := ⟨q, response, grant⟩
  { n with
    state := state
    requests := n.requests.eraseIdx i
    answers := n.answers ++ [answer]
    answered := n.answered ++ [answer] }

/-- The cookies after an answer has reached its client. -/
def Net.keep [DecidableEq B] (n : Net B) (answer : Answered B) : B → Option Kept :=
  match answer.sent.client, answer.response.setCookie with
  | some b, some c => Function.update n.kept b (keepCookie n.clock c)
  | _, _ => n.kept

def Net.receive [DecidableEq B] (n : Net B) (i : Nat) (answer : Answered B) : Net B :=
  { n with
    kept := n.keep answer
    answers := n.answers.eraseIdx i
    received := n.received ++ [⟨answer, n.clock⟩] }

def Net.move [DecidableEq B] (p : Portal) (n : Net B) : Move B → Net B
  | .send b r attached => n.send b r attached
  | .forge r => n.forge r
  | .serve i env => n.requests[i]?.elim n fun q => n.serve p i q env
  | .receive i => n.answers[i]?.elim n fun answer => n.receive i answer

/-- Time passes between any two steps. -/
def Net.act [DecidableEq B] (p : Portal) (n : Net B) (a : Step B) : Net B × List (Answered B) :=
  (Net.move p { n with clock := n.clock + a.delay + 1 } a.move, [])

def atFirst (s : State) : Net B := ⟨s, 0, fun _ => none, [], [], [], []⟩

/-- The answer leaves a new state in the browser and sends it to the identity provider. -/
structure LoginWith (p : Portal) (e : Answered B) (state : Str) : Prop where
  route : route p.demo e.sent.request = some .ssoLogin
  cookie : e.response.setCookie = some ⟨state, 300⟩
  location : e.response.location =
    (redirect e.sent.request.url.escapedPath (authURL p.config e.sent.request state) 302).location

/-- The state parameter of a request. -/
def Answered.state (e : Answered B) : Str := e.sent.request.query "state"

/-- The answer to a callback whose code went to the identity provider, or that grants a session. -/
structure Redeemed (p : Portal) (e : Answered B) : Prop where
  route : route p.demo e.sent.request = some .ssoCallback
  accepted : e.response.setCookie = some clearCookie ∨ e.grant ≠ none

section Cookies

variable {p : Portal} {env : Env} {r : Request} {s : State}

theorem handleLogin_setCookie (now : Nat) : (handleLogin p now r).1.setCookie = none := by
  unfold handleLogin
  split
  · rfl
  · split
    · rfl
    · split
      · rfl
      · split
        · split <;> rfl
        · rfl

theorem handleSSOLogin_setCookie {c : Startup.Config} {random : List Byte} {cookie : Cookie}
    (h : (handleSSOLogin c random r).setCookie = some cookie) :
    cookie = ⟨randomState random, 300⟩ ∧ (handleSSOLogin c random r).location =
      (redirect r.url.escapedPath (authURL c r (randomState random)) 302).location := by
  unfold handleSSOLogin at h ⊢
  split at h
  · cases h
  · rename_i hissuer
    rw [if_neg hissuer]
    cases h
    exact ⟨rfl, rfl⟩

theorem signOn_setCookie {c : Startup.Config} {a : Auth.AuthManager} {lib : OAuth.JWT}
    {sessions : Auth.JWT} {idp : IdentityProvider} (now : Nat) (idToken : Str) (cache : KeyCache) :
    (signOn c a lib sessions idp now idToken cache).1.1.setCookie = some clearCookie := by
  unfold signOn
  split
  · rfl
  · split <;> rfl

theorem handleSSOCallback_setCookie {c : Startup.Config} {a : Auth.AuthManager} {lib : OAuth.JWT}
    {sessions : Auth.JWT} {idp : IdentityProvider} {now : Nat} {cache : KeyCache} {cookie : Cookie}
    (h : (handleSSOCallback c a lib sessions idp now r cache).1.1.setCookie = some cookie) :
    cookie = clearCookie ∧ stateMatches r = true := by
  unfold handleSSOCallback at h
  split at h
  · cases h
  · split at h
    · cases h
    · split at h
      · cases h
      · rename_i hstate
        refine ⟨?_, by simpa using hstate⟩
        split at h
        · exact (Option.some.inj h).symm
        · exact Option.some.inj (h.symm.trans (signOn_setCookie _ _ _))

/-- A login leaves a cookie, and a callback with an accepted state removes it. -/
theorem serve_setCookie {cookie : Cookie} (h : (serve p env r s).2.1.setCookie = some cookie) :
    (route p.demo r = some .ssoLogin ∧ cookie = ⟨randomState env.random, 300⟩ ∧
      (serve p env r s).2.1.location =
        (redirect r.url.escapedPath (authURL p.config r (randomState env.random)) 302).location) ∨
    (cookie = clearCookie ∧ stateMatches r = true) := by
  by_cases hadmin : ForAdmin p r
  · cases ha : p.authManager.authorizeAdmin p.sessions env.now r.authorization with
    | error d =>
      rw [serve_denied hadmin ha] at h
      cases d <;> cases h
    | ok claims =>
      obtain ⟨rt, hrt, hrta⟩ := hadmin
      rw [serve_authorized hrt hrta ha] at h
      cases (handleAdmin_plain p env r s rt).2.symm.trans h
  · unfold serve at h ⊢
    cases hrt : route p.demo r with
    | none =>
      rw [hrt] at h
      cases h
    | some rt =>
      rw [hrt] at h
      cases rt with
      | ssoLogin =>
        obtain ⟨hcookie, hlocation⟩ := handleSSOLogin_setCookie h
        exact .inl ⟨rfl, hcookie, hlocation⟩
      | ssoCallback => exact .inr (handleSSOCallback_setCookie h)
      | login => cases (handleLogin_setCookie (p := p) (r := r) env.now).symm.trans h
      | mockTradeVolume | mockNonCashCollateral | frontend => cases h
      | connections | endpoints | importOpenAPI | vault | logs | settings | operationalStats | tokens
      | openAPI => exact absurd ⟨_, hrt, rfl⟩ hadmin

/-- A session over the provider is granted when the state is accepted. -/
theorem grant_cleared {g : Grant} (h : (serve p env r s).2.2 = some g)
    (hroute : route p.demo r = some .ssoCallback) :
    (serve p env r s).2.1.setCookie = some clearCookie := by
  rcases (serve_grant h).origin with ⟨hlogin, _⟩ | ⟨_, hsso⟩
  · cases hroute.symm.trans hlogin
  · have hshown : (serve p env r s).2.1 = signedOn g.token g.username := hsso.shown
    rw [hshown]
    rfl

theorem stateMatches_iff : stateMatches r = true ↔
    r.query "state" ≠ [] ∧ r.stateCookie = some (r.query "state") := by
  unfold stateMatches
  cases r.stateCookie with
  | none => simp
  | some value =>
    constructor
    · intro h
      simp only [Bool.and_eq_true, decide_eq_true_eq] at h
      exact ⟨h.2 ▸ h.1, congrArg some h.2⟩
    · rintro ⟨hne, heq⟩
      cases heq
      simp [hne]

end Cookies

/-- The browser took the answer to a login of its own, less than five minutes before `t`. -/
def Given (p : Portal) (received : List (Receipt B)) (b : B) (state : Str) (t : Nat) : Prop :=
  ∃ rc ∈ received, rc.answer.sent.client = some b ∧ LoginWith p rc.answer state ∧
    rc.receivedAt < t ∧ t < rc.receivedAt + 300 * Auth.second

/-- The cookie of a request, if a browser sent it, was given to this browser. -/
structure Sent.Own (p : Portal) (clock : Nat) (received : List (Receipt B)) (q : Sent B) : Prop where
  past : q.sentAt ≤ clock
  given : ∀ b, q.client = some b → ∀ v, q.request.stateCookie = some v →
    Given p received b v q.sentAt

/-- An answer is what the portal answered, in some state and some environment. -/
def Answered.Served (p : Portal) (e : Answered B) : Prop :=
  ∃ env s, (serve p env e.sent.request s).2 = (e.response, e.grant)

structure Sound (p : Portal) (n : Net B) : Prop where
  past : ∀ rc ∈ n.received, rc.receivedAt ≤ n.clock
  kept : ∀ b k, n.kept b = some k → ∃ rc ∈ n.received, rc.answer.sent.client = some b ∧
    LoginWith p rc.answer k.value ∧ k.expires = rc.receivedAt + 300 * Auth.second
  requests : ∀ q ∈ n.requests, q.Own p n.clock n.received
  answered : ∀ e ∈ n.answered, e.sent.Own p n.clock n.received ∧ e.Served p
  answers : ∀ e ∈ n.answers, e ∈ n.answered
  received : ∀ rc ∈ n.received, rc.answer ∈ n.answered

section Safety

variable {p : Portal} {n : Net B} {b : B} {clock clock' : Nat} {received received' : List (Receipt B)}

theorem sound_atFirst (p : Portal) (s : State) : Sound p (atFirst s : Net B) where
  past := fun _ h => absurd h List.not_mem_nil
  kept := fun _ _ h => nomatch h
  requests := fun _ h => absurd h List.not_mem_nil
  answered := fun _ h => absurd h List.not_mem_nil
  answers := fun _ h => absurd h List.not_mem_nil
  received := fun _ h => absurd h List.not_mem_nil

theorem Sent.Own.mono {q : Sent B} (h : q.Own p clock received) (hclock : clock ≤ clock')
    (hreceived : received ⊆ received') : q.Own p clock' received' where
  past := Nat.le_trans h.past hclock
  given := by
    intro b hb v hv
    obtain ⟨rc, hrc, hgiven⟩ := h.given b hb v hv
    exact ⟨rc, hreceived hrc, hgiven⟩

theorem Sound.tick (h : Sound p n) (d : Nat) : Sound p { n with clock := n.clock + d + 1 } where
  past := fun rc hrc => Nat.le_trans (h.past rc hrc) (by dsimp only; omega)
  kept := h.kept
  requests := fun q hq => (h.requests q hq).mono (by dsimp only; omega) (List.Subset.refl _)
  answered := fun e he =>
    ⟨(h.answered e he).1.mono (by dsimp only; omega) (List.Subset.refl _), (h.answered e he).2⟩
  answers := h.answers
  received := h.received

theorem attach_eq_some {kept : Option Kept} {now : Nat} {attached : Bool} {v : Str}
    (h : attach kept now attached = some v) : ∃ k, kept = some k ∧ k.value = v ∧ now < k.expires := by
  unfold attach at h
  split at h
  · obtain ⟨k, hk, rfl⟩ := Option.map_eq_some_iff.mp h
    obtain ⟨hsome, hlive⟩ := Option.filter_eq_some_iff.mp hk
    exact ⟨k, hsome, rfl, by simpa using hlive⟩
  · cases h

theorem Sound.answered_mono (h : Sound p n) (hclock : n.clock ≤ clock')
    (hreceived : n.received ⊆ received') {e : Answered B} (he : e ∈ n.answered) :
    e.sent.Own p clock' received' ∧ e.Served p :=
  ⟨(h.answered e he).1.mono hclock hreceived, (h.answered e he).2⟩

theorem Sound.send (h : Sound p n) (hpast : ∀ rc ∈ n.received, rc.receivedAt < n.clock) (b : B)
    (r : Request) (attached : Bool) : Sound p (n.send b r attached) where
  past := h.past
  kept := h.kept
  requests := by
    intro q hq
    rcases List.mem_append.mp hq with hold | hnew
    · exact (h.requests q hold).mono (Nat.le_refl _) (List.Subset.refl _)
    · cases List.mem_singleton.mp hnew
      refine ⟨Nat.le_refl _, ?_⟩
      intro b' hb v hv
      cases hb
      obtain ⟨k, hk, rfl, hlive⟩ := attach_eq_some hv
      obtain ⟨rc, hrc, hclient, hlogin, hexpires⟩ := h.kept b k hk
      exact ⟨rc, hrc, hclient, hlogin, hpast rc hrc, hexpires ▸ hlive⟩
  answered := fun _ he => h.answered_mono (Nat.le_refl _) (List.Subset.refl _) he
  answers := h.answers
  received := h.received

theorem Sound.forge (h : Sound p n) (r : Request) : Sound p (n.forge r) where
  past := h.past
  kept := h.kept
  requests := by
    intro q hq
    rcases List.mem_append.mp hq with hold | hnew
    · exact (h.requests q hold).mono (Nat.le_refl _) (List.Subset.refl _)
    · cases List.mem_singleton.mp hnew
      exact ⟨Nat.le_refl _, fun b hb => nomatch hb⟩
  answered := fun _ he => h.answered_mono (Nat.le_refl _) (List.Subset.refl _) he
  answers := h.answers
  received := h.received

theorem Sound.serve (h : Sound p n) {i : Nat} {q : Sent B} (hq : n.requests[i]? = some q) (env : Env) :
    Sound p (n.serve p i q env) where
  past := h.past
  kept := h.kept
  requests := by
    intro q' hq'
    exact (h.requests q' (List.mem_of_mem_eraseIdx hq')).mono (Nat.le_refl _) (List.Subset.refl _)
  answered := by
    intro e he
    rcases List.mem_append.mp he with hold | hnew
    · exact h.answered_mono (Nat.le_refl _) (List.Subset.refl _) hold
    · cases List.mem_singleton.mp hnew
      have hown := h.requests q (List.mem_of_getElem? hq)
      exact ⟨hown.mono (Nat.le_refl _) (List.Subset.refl _), { env with now := n.clock }, n.state, rfl⟩
  answers := by
    intro e he
    rcases List.mem_append.mp he with hold | hnew
    · exact List.mem_append_left _ (h.answers e hold)
    · exact List.mem_append_right _ hnew
  received := fun rc hrc => List.mem_append_left _ (h.received rc hrc)

theorem keepCookie_eq_some {now : Nat} {c : Cookie} {k : Kept} (h : keepCookie now c = some k) :
    0 < c.maxAge ∧ k = ⟨c.value, now + c.maxAge.toNat * Auth.second⟩ := by
  unfold keepCookie at h
  split at h
  · exact ⟨‹_›, (Option.some.inj h).symm⟩
  · cases h

/-- A cookie that is kept was set by a login. -/
theorem loginWith_of_kept {e : Answered B} (he : e.Served p) {c : Cookie}
    (hc : e.response.setCookie = some c) (hage : 0 < c.maxAge) :
    c.maxAge = 300 ∧ LoginWith p e c.value := by
  obtain ⟨env, s, hserve⟩ := he
  have hresponse : (PortalServer.serve p env e.sent.request s).2.1 = e.response := congrArg Prod.fst hserve
  rw [← hresponse] at hc
  rcases serve_setCookie hc with ⟨hroute, rfl, hlocation⟩ | ⟨rfl, _⟩
  · exact ⟨rfl, hroute, hresponse ▸ hc, hresponse ▸ hlocation⟩
  · exact absurd hage (by decide)

/-- The state of a redeemed callback is that of its cookie, which is removed. -/
theorem Redeemed.cookie {e : Answered B} (h : Redeemed p e) (he : e.Served p) :
    e.response.setCookie = some clearCookie ∧ e.sent.request.stateCookie = some e.state := by
  obtain ⟨env, s, hserve⟩ := he
  have hresponse : (PortalServer.serve p env e.sent.request s).2.1 = e.response := congrArg Prod.fst hserve
  have hgrant : (PortalServer.serve p env e.sent.request s).2.2 = e.grant := congrArg Prod.snd hserve
  have hcleared : (PortalServer.serve p env e.sent.request s).2.1.setCookie = some clearCookie := by
    rcases h.accepted with hc | hg
    · exact hresponse ▸ hc
    · obtain ⟨g, hg⟩ := Option.ne_none_iff_exists'.mp hg
      exact grant_cleared (hgrant.trans hg) h.route
  refine ⟨hresponse ▸ hcleared, ?_⟩
  rcases serve_setCookie hcleared with ⟨_, hlogin, _⟩ | ⟨_, hmatches⟩
  · have hage : (-1 : Int) = 300 := congrArg Cookie.maxAge hlogin
    exact absurd hage (by decide)
  · exact (stateMatches_iff.mp hmatches).2

variable [DecidableEq B]

/-- What a browser keeps after an answer: what it kept before, or the cookie of this answer. -/
theorem keep_eq_some {e : Answered B} {k : Kept} (h : n.keep e b = some k) :
    n.kept b = some k ∨ (e.sent.client = some b ∧
      ∃ c, e.response.setCookie = some c ∧ keepCookie n.clock c = some k) := by
  unfold Net.keep at h
  cases hclient : e.sent.client with
  | none =>
    rw [hclient] at h
    exact .inl h
  | some b' =>
    rw [hclient] at h
    cases hcookie : e.response.setCookie with
    | none =>
      rw [hcookie] at h
      exact .inl h
    | some c =>
      rw [hcookie] at h
      dsimp only at h
      by_cases hb : b = b'
      · subst hb
        rw [Function.update_self] at h
        exact .inr ⟨rfl, c, rfl, h⟩
      · rw [Function.update_of_ne hb] at h
        exact .inl h

theorem Sound.receive (h : Sound p n) {i : Nat} {e : Answered B} (hi : n.answers[i]? = some e) :
    Sound p (n.receive i e) where
  past := by
    intro rc hrc
    rcases List.mem_append.mp hrc with hold | hnew
    · exact h.past rc hold
    · cases List.mem_singleton.mp hnew
      exact Nat.le_refl _
  kept := by
    intro b k hk
    have hserved := (h.answered e (h.answers e (List.mem_of_getElem? hi))).2
    rcases keep_eq_some hk with hold | ⟨hclient, c, hc, hkeep⟩
    · obtain ⟨rc, hrc, hrest⟩ := h.kept b k hold
      exact ⟨rc, List.mem_append_left _ hrc, hrest⟩
    · obtain ⟨hage, rfl⟩ := keepCookie_eq_some hkeep
      obtain ⟨hmax, hlogin⟩ := loginWith_of_kept hserved hc hage
      exact ⟨⟨e, n.clock⟩, List.mem_append_right _ (List.mem_singleton_self _), hclient, hlogin, by
        rw [hmax]; rfl⟩
  requests := fun q hq => (h.requests q hq).mono (Nat.le_refl _) (List.subset_append_left _ _)
  answered := fun _ he => h.answered_mono (Nat.le_refl _) (List.subset_append_left _ _) he
  answers := fun e he => h.answers e (List.mem_of_mem_eraseIdx he)
  received := by
    intro rc hrc
    rcases List.mem_append.mp hrc with hold | hnew
    · exact h.received rc hold
    · cases List.mem_singleton.mp hnew
      exact h.answers e (List.mem_of_getElem? hi)

theorem Sound.act (h : Sound p n) (a : Step B) : Sound p (n.act p a).1 := by
  have htick := h.tick a.delay
  unfold Net.act
  cases a.move with
  | send b r attached =>
    refine htick.send ?_ b r attached
    intro rc hrc
    have hpast := h.past rc hrc
    dsimp only
    omega
  | forge r => exact htick.forge r
  | serve i env =>
    unfold Net.move
    dsimp only
    cases hq : n.requests[i]? with
    | none => exact htick
    | some q => exact htick.serve hq env
  | receive i =>
    unfold Net.move
    dsimp only
    cases hi : n.answers[i]? with
    | none => exact htick
    | some e => exact htick.receive hi

theorem sound_final (s : State) (as : List (Step B)) : Sound p (Run.final (Net.act p) (atFirst s) as) :=
  Run.inv_final (fun _ a h _ => h.act a) as _ (sound_atFirst p s)
    (Run.along_of_forall (fun _ _ => trivial) as _)

/-- Whenever the code of a browser's callback is redeemed, and every time that a browser is granted
a session by the provider, the state is one that the portal gave to this browser. -/
theorem redeemed_own_login (s : State) (as : List (Step B)) {e : Answered B}
    (he : e ∈ (Run.final (Net.act p) (atFirst s) as).answered) (hb : e.sent.client = some b)
    (hredeemed : Redeemed p e) :
    Given p (Run.final (Net.act p) (atFirst s) as).received b e.state e.sent.sentAt := by
  obtain ⟨hown, hserved⟩ := (sound_final s as).answered e he
  exact hown.given b hb e.state (hredeemed.cookie hserved).2

end Safety

/-- The state that an answer leaves in the browser. -/
def Answered.newState (e : Answered B) : Option Str :=
  (e.response.setCookie.filter fun c => 0 < c.maxAge).map Cookie.value

def newStates (es : List (Answered B)) : List Str := es.filterMap Answered.newState

/-- The random state of a login has not been used before. -/
def Fresh (p : Portal) (n : Net B) (a : Step B) : Prop :=
  ∀ i env q, a.move = .serve i env → n.requests[i]? = some q →
    route p.demo q.request = some .ssoLogin → randomState env.random ∉ newStates n.answered

/-- Every answer is on its way or has been received, and no two leave the same state. -/
structure Accounted (n : Net B) : Prop where
  perm : n.answered.Perm (n.answers ++ n.received.map Receipt.answer)
  nodup : (newStates n.answered).Nodup

section Once

variable {p : Portal} {n : Net B} {b : B}

theorem newState_of_loginWith {e : Answered B} {v : Str} (h : LoginWith p e v) : e.newState = some v := by
  unfold Answered.newState
  rw [h.cookie]
  rfl

theorem newState_eq_some {e : Answered B} {v : Str} (h : e.newState = some v) :
    ∃ c, e.response.setCookie = some c ∧ 0 < c.maxAge ∧ c.value = v := by
  obtain ⟨c, hc, hv⟩ := Option.map_eq_some_iff.mp h
  obtain ⟨hsome, hage⟩ := Option.filter_eq_some_iff.mp hc
  exact ⟨c, hsome, by simpa using hage, hv⟩

/-- Answers that leave the same state are the same. -/
theorem eq_of_newState {es : List (Answered B)} (h : (newStates es).Nodup) {e e' : Answered B}
    (he : e ∈ es) (he' : e' ∈ es) {v : Str} (hv : e.newState = some v) (hv' : e'.newState = some v) :
    e = e' := by
  by_contra hne
  have hpair := List.pairwise_filterMap.mp h
  have hsymm : Std.Symm fun e e' : Answered B =>
      ∀ x, e.newState = some x → ∀ y, e'.newState = some y → x ≠ y :=
    ⟨fun e e' hxy y hy x hx => (hxy x hx y hy).symm⟩
  exact hpair.forall he he' hne v hv v hv' rfl

/-- What has been received leaves other states than what is on its way. -/
theorem Accounted.newState_ne (h : Accounted n) {e : Answered B} {rc : Receipt B} (he : e ∈ n.answers)
    (hrc : rc ∈ n.received) {v w : Str} (hv : e.newState = some v) (hw : rc.answer.newState = some w) :
    v ≠ w := by
  have hnodup : (newStates (n.answers ++ n.received.map Receipt.answer)).Nodup :=
    (h.perm.filterMap _).nodup_iff.mp h.nodup
  unfold newStates at hnodup
  rw [List.filterMap_append, List.nodup_append] at hnodup
  exact hnodup.2.2 v (List.mem_filterMap.mpr ⟨e, he, hv⟩) w
    (List.mem_filterMap.mpr ⟨rc.answer, List.mem_map_of_mem hrc, hw⟩)

theorem accounted_atFirst (s : State) : Accounted (atFirst s : Net B) := ⟨List.Perm.refl _, List.nodup_nil⟩

theorem nodup_newStates_concat {es : List (Answered B)} (h : (newStates es).Nodup) {e : Answered B}
    (he : ∀ v, e.newState = some v → v ∉ newStates es) : (newStates (es ++ [e])).Nodup := by
  have hconcat : newStates (es ++ [e]) = newStates es ++ e.newState.toList := by
    unfold newStates
    rw [List.filterMap_append, List.filterMap_cons, List.filterMap_nil]
    cases e.newState <;> rfl
  rw [hconcat]
  cases hv : e.newState with
  | none => simpa using h
  | some v =>
    rw [Option.toList_some, ← List.concat_eq_append]
    exact h.concat (he v hv)

theorem Accounted.serve (h : Accounted n) {i : Nat} {q : Sent B} {env : Env}
    (hfresh : route p.demo q.request = some .ssoLogin → randomState env.random ∉ newStates n.answered) :
    Accounted (n.serve p i q env) where
  perm := by
    refine (h.perm.append_right _).trans ?_
    rw [List.append_assoc]
    refine (List.perm_append_comm.append_left n.answers).trans ?_
    rw [← List.append_assoc]
    exact List.Perm.refl _
  nodup := by
    refine nodup_newStates_concat h.nodup ?_
    intro v hv
    obtain ⟨c, hc, hage, rfl⟩ := newState_eq_some hv
    rcases serve_setCookie hc with ⟨hroute, rfl, _⟩ | ⟨rfl, _⟩
    · exact hfresh hroute
    · exact absurd hage (by decide)

variable [DecidableEq B]

theorem Accounted.receive (h : Accounted n) {i : Nat} {e : Answered B} (hi : n.answers[i]? = some e) :
    Accounted (n.receive i e) where
  perm := by
    obtain ⟨hlt, rfl⟩ := List.getElem?_eq_some_iff.mp hi
    refine h.perm.trans ?_
    dsimp only [Net.receive]
    rw [List.map_append, ← List.append_assoc]
    refine ((List.getElem_cons_eraseIdx_perm hlt).symm.append_right _).trans ?_
    exact (List.perm_append_singleton _ _).symm
  nodup := h.nodup

theorem Accounted.act (h : Accounted n) {a : Step B} (hfresh : Fresh p n a) : Accounted (n.act p a).1 := by
  have htick : Accounted { n with clock := n.clock + a.delay + 1 } := ⟨h.perm, h.nodup⟩
  unfold Net.act
  unfold Fresh at hfresh
  cases hmove : a.move with
  | send b r attached => exact ⟨h.perm, h.nodup⟩
  | forge r => exact ⟨h.perm, h.nodup⟩
  | serve i env =>
    unfold Net.move
    dsimp only
    cases hq : n.requests[i]? with
    | none => exact htick
    | some q => exact htick.serve (hfresh i env q hmove hq)
  | receive i =>
    unfold Net.move
    dsimp only
    cases hi : n.answers[i]? with
    | none => exact htick
    | some e => exact htick.receive hi

theorem accounted_final (s : State) (as : List (Step B))
    (has : Run.Along (Net.act p) (Fresh p) (atFirst s) as) :
    Accounted (Run.final (Net.act p) (atFirst s) as) :=
  Run.inv_final (fun _ _ h ha => h.act ha) as _ (accounted_atFirst s) has

/-- A callback with the state of a login that was answered to somebody else is never redeemed. -/
theorem injected_refused (s : State) (as : List (Step B))
    (has : Run.Along (Net.act p) (Fresh p) (atFirst s) as) {e l : Answered B}
    (he : e ∈ (Run.final (Net.act p) (atFirst s) as).answered) (hb : e.sent.client = some b)
    (hl : l ∈ (Run.final (Net.act p) (atFirst s) as).answered) (hlogin : LoginWith p l e.state)
    (hother : l.sent.client ≠ some b) : ¬ Redeemed p e := by
  intro hredeemed
  obtain ⟨rc, hrc, hclient, hgiven, _⟩ := redeemed_own_login s as he hb hredeemed
  have hanswered := (sound_final (p := p) s as).received rc hrc
  have hsame := eq_of_newState (accounted_final s as has).nodup hl hanswered
    (newState_of_loginWith hlogin) (newState_of_loginWith hgiven)
  exact hother (hsame ▸ hclient)

end Once

section Spending

variable {p : Portal} {n : Net B} {b : B}

/-- What becomes of the state of a redeemed callback, once its browser has the answer. -/
structure Spent (b : B) (n : Net B) (state : Str) (since : Nat) : Prop where
  kept : ∀ k, n.kept b = some k → k.value ≠ state
  requests : ∀ q ∈ n.requests, q.client = some b → q.request.stateCookie = some state → q.sentAt ≤ since
  answered : ∀ e ∈ n.answered, e.sent.client = some b → e.sent.request.stateCookie = some state →
    e.sent.sentAt ≤ since

def Once (p : Portal) (n : Net B) : Prop :=
  ∀ rc ∈ n.received, ∀ b, rc.answer.sent.client = some b → Redeemed p rc.answer →
    Spent b n rc.answer.state rc.receivedAt

theorem Spent.send {state : Str} {since : Nat} (h : Spent b n state since) (b' : B) (r : Request)
    (attached : Bool) : Spent b (n.send b' r attached) state since where
  kept := h.kept
  requests := by
    intro q hq hclient hcookie
    rcases List.mem_append.mp hq with hold | hnew
    · exact h.requests q hold hclient hcookie
    · cases List.mem_singleton.mp hnew
      cases hclient
      obtain ⟨k, hk, hvalue, _⟩ := attach_eq_some hcookie
      exact absurd hvalue (h.kept k hk)
  answered := h.answered

theorem Spent.forge {state : Str} {since : Nat} (h : Spent b n state since) (r : Request) :
    Spent b (n.forge r) state since where
  kept := h.kept
  requests := by
    intro q hq hclient hcookie
    rcases List.mem_append.mp hq with hold | hnew
    · exact h.requests q hold hclient hcookie
    · cases List.mem_singleton.mp hnew
      cases hclient
  answered := h.answered

theorem Spent.serve {state : Str} {since : Nat} (h : Spent b n state since) {i : Nat} {q : Sent B}
    (hq : n.requests[i]? = some q) (env : Env) : Spent b (n.serve p i q env) state since where
  kept := h.kept
  requests := fun q' hq' => h.requests q' (List.mem_of_mem_eraseIdx hq')
  answered := by
    intro e he hclient hcookie
    rcases List.mem_append.mp he with hold | hnew
    · exact h.answered e hold hclient hcookie
    · cases List.mem_singleton.mp hnew
      exact h.requests q (List.mem_of_getElem? hq) hclient hcookie

variable [DecidableEq B]

/-- An answer that leaves another state changes nothing about a spent one. -/
theorem Spent.receive {state : Str} {since : Nat} (h : Spent b n state since) {i : Nat} {e : Answered B}
    (hother : ∀ v, e.newState = some v → v ≠ state) : Spent b (n.receive i e) state since where
  kept := by
    intro k hk
    rcases keep_eq_some hk with hold | ⟨_, c, hc, hkeep⟩
    · exact h.kept k hold
    · obtain ⟨hage, rfl⟩ := keepCookie_eq_some hkeep
      refine hother c.value ?_
      unfold Answered.newState
      rw [hc, Option.filter_some]
      simp [hage]
  requests := h.requests
  answered := h.answered

/-- The browser that takes the answer to a redeemed callback has no state any more. -/
theorem spent_now (h : Sound p n) {i : Nat} {e : Answered B} (hi : n.answers[i]? = some e)
    (hb : e.sent.client = some b) (hredeemed : Redeemed p e) :
    Spent b (n.receive i e) e.state n.clock where
  kept := by
    intro k hk
    obtain ⟨hcleared, _⟩ := hredeemed.cookie (h.answered e (h.answers e (List.mem_of_getElem? hi))).2
    have hkept : (n.receive i e).kept b = none := by
      dsimp only [Net.receive]
      unfold Net.keep
      rw [hb, hcleared]
      dsimp only
      rw [Function.update_self]
      rfl
    rw [hkept] at hk
    cases hk
  requests := fun q hq _ _ => (h.requests q hq).past
  answered := fun e he _ _ => (h.answered e he).1.past

theorem Once.receive (h : Once p n) (hsound : Sound p n) (hacc : Accounted n) {i : Nat} {e : Answered B}
    (hi : n.answers[i]? = some e) : Once p (n.receive i e) := by
  intro rc hrc b hb hredeemed
  rcases List.mem_append.mp hrc with hold | hnew
  · refine (h rc hold b hb hredeemed).receive ?_
    intro v hv
    -- The state that is spent came with a login that has been received.
    obtain ⟨hown, hserved⟩ := hsound.answered rc.answer (hsound.received rc hold)
    obtain ⟨rc', hrc', _, hlogin, _⟩ := hown.given b hb _ (hredeemed.cookie hserved).2
    exact hacc.newState_ne (List.mem_of_getElem? hi) hrc' hv (newState_of_loginWith hlogin)
  · cases List.mem_singleton.mp hnew
    exact spent_now hsound hi hb hredeemed

theorem Once.act (h : Once p n) (hsound : Sound p n) (hacc : Accounted n) (a : Step B) :
    Once p (n.act p a).1 := by
  have htick : Once p { n with clock := n.clock + a.delay + 1 } := by
    intro rc hrc b hb hredeemed
    obtain ⟨hkept, hrequests, hanswered⟩ := h rc hrc b hb hredeemed
    exact ⟨hkept, hrequests, hanswered⟩
  unfold Net.act
  cases hmove : a.move with
  | send b r attached => exact fun rc hrc b' hb' hr => (htick rc hrc b' hb' hr).send b r attached
  | forge r => exact fun rc hrc b' hb' hr => (htick rc hrc b' hb' hr).forge r
  | serve i env =>
    unfold Net.move
    dsimp only
    cases hq : n.requests[i]? with
    | none => exact htick
    | some q => exact fun rc hrc b' hb' hr => (htick rc hrc b' hb' hr).serve hq env
  | receive i =>
    unfold Net.move
    dsimp only
    cases hi : n.answers[i]? with
    | none => exact htick
    | some e => exact htick.receive (hsound.tick a.delay) ⟨hacc.perm, hacc.nodup⟩ hi

/-- Once a browser has taken the answer to a callback that was redeemed, no callback that it sends
later is redeemed under the same state. -/
theorem state_redeemed_once (s : State) (as : List (Step B))
    (has : Run.Along (Net.act p) (Fresh p) (atFirst s) as) {rc : Receipt B}
    (hrc : rc ∈ (Run.final (Net.act p) (atFirst s) as).received)
    (hb : rc.answer.sent.client = some b) (hredeemed : Redeemed p rc.answer) {e : Answered B}
    (he : e ∈ (Run.final (Net.act p) (atFirst s) as).answered) (hb' : e.sent.client = some b)
    (hredeemed' : Redeemed p e) (hsame : e.state = rc.answer.state) :
    e.sent.sentAt ≤ rc.receivedAt := by
  have hstep (n : Net B) (a : Step B) (h : Sound p n ∧ Accounted n ∧ Once p n) (ha : Fresh p n a) :
      Sound p (n.act p a).1 ∧ Accounted (n.act p a).1 ∧ Once p (n.act p a).1 :=
    ⟨h.1.act a, h.2.1.act ha, h.2.2.act h.1 h.2.1 a⟩
  obtain ⟨hsound, _, honce⟩ := Run.inv_final hstep as (atFirst s)
    ⟨sound_atFirst p s, accounted_atFirst s, fun _ h => absurd h List.not_mem_nil⟩ has
  obtain ⟨_, hcookie⟩ := hredeemed'.cookie (hsound.answered e he).2
  exact (honce rc hrc b hb hredeemed).answered e he hb' (hsame ▸ hcookie)

end Spending

/-- A portal behind an identity provider. -/
def ssoPortal : Portal := portalOf fun k => lookup k
  [("OIDC_ISSUER".toList, "https://id".toList), ("OIDC_CLIENT_ID".toList, "janus".toList)]

def ssoEnv : Env := { plainEnv 0 with random := [1, 2, 3] }

def toSSO (target : String) : Request := requestTo "GET".toList target.toList [] []

/-- A minute later the callback with the state that the login left. -/
def callback : Step Unit :=
  ⟨60 * Auth.second, .send () (toSSO "/api/auth/sso/callback?code=c&state=AQID") true⟩

def signOnRun (login : Move Unit) : List (Step Unit) :=
  [⟨0, login⟩, ⟨0, .serve 0 ssoEnv⟩, ⟨0, .receive 0⟩, callback, ⟨0, .serve 0 ssoEnv⟩, ⟨0, .receive 0⟩]

def ownLogin : Move Unit := .send () (toSSO "/api/auth/sso/login") true

def signedOnNet (login : Move Unit) : Net Unit :=
  Run.final (Net.act ssoPortal) (atFirst emptyState) (signOnRun login)

theorem redeemed_signOnRun : ∃ e ∈ (signedOnNet ownLogin).answered, e.sent.client = some () ∧
    route ssoPortal.demo e.sent.request = some .ssoCallback ∧
    e.response.setCookie = some clearCookie ∧ e.state = "AQID".toList := by decide +kernel

theorem redeemed_own_login_signOnRun : ∃ e ∈ (signedOnNet ownLogin).answered,
    Given ssoPortal (signedOnNet ownLogin).received () e.state e.sent.sentAt := by
  obtain ⟨e, he, hclient, hroute, hcleared, _⟩ := redeemed_signOnRun
  exact ⟨e, he, redeemed_own_login emptyState (signOnRun ownLogin) he hclient ⟨hroute, .inl hcleared⟩⟩

theorem fresh_of_first {B : Type} {p : Portal} {n : Net B} (a : Step B)
    (h : ∀ q ∈ n.requests, route p.demo q.request = some .ssoLogin → newStates n.answered = []) :
    Fresh p n a := by
  intro i env q _ hq hroute
  rw [h q (List.mem_of_getElem? hq) hroute]
  exact List.not_mem_nil

/-- The callback is sent again before the answer to the first one comes. -/
def againRun : List (Step Unit) :=
  [⟨0, ownLogin⟩, ⟨0, .serve 0 ssoEnv⟩, ⟨0, .receive 0⟩, callback, callback, ⟨0, .serve 0 ssoEnv⟩,
    ⟨0, .serve 0 ssoEnv⟩, ⟨0, .receive 0⟩]

def againNet : Net Unit := Run.final (Net.act ssoPortal) (atFirst emptyState) againRun

theorem fresh_againRun : Run.Along (Net.act ssoPortal) (Fresh ssoPortal) (atFirst emptyState) againRun :=
  ⟨fresh_of_first _ (by decide +kernel), fresh_of_first _ (by decide +kernel),
    fresh_of_first _ (by decide +kernel), fresh_of_first _ (by decide +kernel),
    fresh_of_first _ (by decide +kernel), fresh_of_first _ (by decide +kernel),
    fresh_of_first _ (by decide +kernel), fresh_of_first _ (by decide +kernel), trivial⟩

theorem redeemed_againRun : ∃ rc ∈ againNet.received, ∃ e ∈ againNet.answered,
    (rc.answer.sent.client = some () ∧ route ssoPortal.demo rc.answer.sent.request = some .ssoCallback ∧
      rc.answer.response.setCookie = some clearCookie) ∧
    (e.sent.client = some () ∧ route ssoPortal.demo e.sent.request = some .ssoCallback ∧
      e.response.setCookie = some clearCookie) ∧
    e.state = rc.answer.state ∧ rc.answer.sent.sentAt < e.sent.sentAt := by decide +kernel

/-- Both callbacks are redeemed, and the second was sent before the answer to the first came. -/
theorem state_redeemed_once_againRun : ∃ rc ∈ againNet.received, ∃ e ∈ againNet.answered,
    rc.answer.sent.sentAt < e.sent.sentAt ∧ e.sent.sentAt ≤ rc.receivedAt := by
  obtain ⟨rc, hrc, e, he, ⟨hclient, hroute, hcleared⟩, ⟨hclient', hroute', hcleared'⟩, hstate, hlater⟩ :=
    redeemed_againRun
  exact ⟨rc, hrc, e, he, hlater, state_redeemed_once emptyState againRun fresh_againRun hrc hclient
    ⟨hroute, .inl hcleared⟩ he hclient' ⟨hroute', .inl hcleared'⟩ hstate⟩

/-- The login of a client that is no browser. -/
def foreignLogin : Move Unit := .forge (toSSO "/api/auth/sso/login")

theorem fresh_foreignLogin :
    Run.Along (Net.act ssoPortal) (Fresh ssoPortal) (atFirst emptyState) (signOnRun foreignLogin) :=
  ⟨fresh_of_first _ (by decide +kernel), fresh_of_first _ (by decide +kernel),
    fresh_of_first _ (by decide +kernel), fresh_of_first _ (by decide +kernel),
    fresh_of_first _ (by decide +kernel), fresh_of_first _ (by decide +kernel), trivial⟩

theorem answered_foreignLogin : ∃ l ∈ (signedOnNet foreignLogin).answered,
    route ssoPortal.demo l.sent.request = some .ssoLogin ∧
    l.response.setCookie = some ⟨"AQID".toList, 300⟩ ∧
    l.response.location = (redirect l.sent.request.url.escapedPath
      (authURL ssoPortal.config l.sent.request "AQID".toList) 302).location ∧
    l.sent.client = none := by decide +kernel

theorem answered_injected : ∃ e ∈ (signedOnNet foreignLogin).answered, e.sent.client = some () ∧
    e.state = "AQID".toList := by decide +kernel

theorem injected_refused_foreignLogin : ∃ e ∈ (signedOnNet foreignLogin).answered,
    e.state = "AQID".toList ∧ ¬ Redeemed ssoPortal e := by
  obtain ⟨l, hl, hroute, hcookie, hlocation, hclient⟩ := answered_foreignLogin
  obtain ⟨e, he, hb, hstate⟩ := answered_injected
  have hlogin : LoginWith ssoPortal l e.state := hstate ▸ ⟨hroute, hcookie, hlocation⟩
  exact ⟨e, he, hstate, injected_refused emptyState (signOnRun foreignLogin) fresh_foreignLogin he hb hl
    hlogin (by simp [hclient])⟩

end Janus.SignOnBrowsers
