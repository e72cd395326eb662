import Janus.PortalSessions
import Janus.Revocation

/-!
# The gateway process

The portal and the MCP server run in one process, on one database and one vault. A tool call is
reached only by the master token, by a token of the OAuth issuers, or by the token of a client
that an administrator of the portal has created, in a session that goes back to a login.
-/

namespace Janus.GatewayProcess

set_option autoImplicit false

open PortalServer
open Storage (TimedLog)
open Server (World Identity CallEvent)
open Auth (bearerToken)

/-- The process: the server with the database and the vault, and what else the portal has. -/
structure Process where
  world : World
  logs : List TimedLog
  keys : KeyCache
  answered : List Exchanged

/-- The portal of a process. -/
def Process.system (x : Process) : System where
  state := ⟨⟨x.world.srv.vault, x.world.srv.db⟩, x.logs, x.keys⟩
  answered := x.answered

def Process.withSystem (x : Process) (sys : System) : Process where
  world := { x.world with srv := { x.world.srv with
    db := sys.state.stores.db
    vault := sys.state.stores.vault } }
  logs := sys.state.logs
  keys := sys.state.keys
  answered := sys.answered

inductive Event where
  | portal (a : PortalServer.Action)
  | mcp (a : Server.Action)
  /-- The audit worker writes a row. -/
  | logged (l : TimedLog)

/-- A tool call that got through, with the message that made it. -/
structure Reached where
  action : Server.Action
  call : CallEvent

def Process.act (p : Portal) (x : Process) : Event → Process × List Reached
  | .portal a => (x.withSystem (x.system.act p a).1, [])
  | .mcp a =>
    ({ x with world := (Server.step x.world a).1 }, (Server.step x.world a).2.map fun ev => ⟨a, ev⟩)
  | .logged l => ({ x with logs := x.logs ++ [l] }, [])

/-- What is asked of the outside: nobody else signs with the secret of the sessions, and the table
of tokens is written by the portal alone. -/
def Admitted (p : Portal) (x : Process) : Event → Prop
  | .portal a => PortalServer.Admitted p x.system a
  | .mcp a => ∀ edit, a ≠ .editToken edit
  | .logged _ => True

/-- A process on a database as it is found, that has answered nothing. -/
def booted (w : World) : Process := ⟨w, [], [], []⟩

variable {p : Portal} {x : Process} {ev : Event}

theorem system_portal (a : PortalServer.Action) :
    (x.act p (.portal a)).1.system = (x.system.act p a).1 := rfl

/-- An answer to a request for an administrative route, other than a refusal, was given to a
session that an administrator was granted less than a day before. -/
structure Warranted (answered : List Exchanged) (e : Exchanged) (g : Grant) : Prop where
  granted : ∃ e' ∈ answered, e'.grant = some g
  token : g.token = bearerToken e.request.authorization
  live : e.now < Auth.expiry g.grantedAt
  role : g.role = "admin".toList

structure Sound (p : Portal) (x : Process) : Prop where
  recorded : Recorded p x.system
  warranted : ∀ e ∈ x.answered, ForAdmin p e.request → e.response.status ∈ handled →
    ∃ g, Warranted x.answered e g

theorem sound_booted (p : Portal) (w : World) : Sound p (booted w) where
  recorded := ⟨fun _ h => absurd h List.not_mem_nil, fun _ h => absurd h List.not_mem_nil⟩
  warranted := fun _ h => absurd h List.not_mem_nil

theorem Warranted.mono {es es' : List Exchanged} {e : Exchanged} {g : Grant} (h : Warranted es e g)
    (hsub : es ⊆ es') : Warranted es' e g where
  granted := by
    obtain ⟨e', he', hg⟩ := h.granted
    exact ⟨e', hsub he', hg⟩
  token := h.token
  live := h.live
  role := h.role

theorem Sound.portal (hlib : p.sessions.Lawful) (h : Sound p x) {a : PortalServer.Action}
    (ha : PortalServer.Admitted p x.system a) : Sound p (x.act p (.portal a)).1 where
  recorded := h.recorded.act ha.timely
  warranted := by
    intro e he hroute hstatus
    have hsub : x.answered ⊆ (x.system.act p a).1.answered := List.subset_append_left _ _
    rcases List.mem_append.mp he with hold | hnew
    · obtain ⟨g, hg⟩ := h.warranted e hold hroute hstatus
      exact ⟨g, hg.mono hsub⟩
    · cases List.mem_singleton.mp hnew
      have hserved := (h.recorded.answers hlib ha.unforged hroute).served
      obtain ⟨g, hg, hrole⟩ := hserved.mp hstatus
      exact ⟨g, Warranted.mono ⟨hg.granted, hg.token, hg.live, hrole⟩ hsub⟩

theorem Sound.act (hlib : p.sessions.Lawful) (h : Sound p x) (hev : Admitted p x ev) :
    Sound p (x.act p ev).1 := by
  cases ev with
  | portal a => exact h.portal hlib hev
  | mcp a => exact ⟨⟨h.recorded.granted, h.recorded.timely⟩, h.warranted⟩
  | logged l => exact ⟨⟨h.recorded.granted, h.recorded.timely⟩, h.warranted⟩

end Janus.GatewayProcess
