import Mathlib

/-! Requests of the operator to the tile: another scheduler, another name for it, on or off. -/
namespace Firebam.Bam

abbrev Cstr := List Char

def ncpy (s : Cstr) : Cstr := s.take 255

structure Endpoint where
  fqdn : Cstr
  port : Nat
  ssl : Bool
deriving DecidableEq

structure Url where
  host : Cstr
  portLen : Nat
  port : Nat
  ssl : Bool

structure Request where
  command : Nat
  enable : Bool
  url : Cstr
  sni : Cstr

def Request.blank (req : Request) : Prop :=
  req.command.testBit 1 ∧ req.url.dropWhile (· ∈ [' ', '\t', '\n', '\x0b', '\x0c', '\r']) = []

instance (req : Request) : Decidable req.blank := inferInstanceAs (Decidable (_ ∧ _))

structure Control (Txn Res : Type) where
  server : Endpoint
  serverSni : Cstr
  enabled : Bool
  ownershipGen : Nat
  ownershipGenRetired : Bool
  schedulerGen : Nat
  pendingTxns : List Txn
  bamResults : List Res

variable {Txn Res : Type}

def nextGen (gen : Nat) : Nat := if (gen + 1) % 2 ^ 16 = 0 then 1 else (gen + 1) % 2 ^ 16

namespace Control
variable (ctx : Control Txn Res)

def beginOwnershipGeneration (forgetFeedback : Bool) : Control Txn Res :=
  { ctx with
    ownershipGen := nextGen ctx.ownershipGen
    ownershipGenRetired := true
    pendingTxns := []
    bamResults := if forgetFeedback then [] else ctx.bamResults }

def beginSchedulerGeneration : Control Txn Res :=
  { ctx with schedulerGen := nextGen ctx.schedulerGen }.beginOwnershipGeneration true

def clientReset (prevBamActive : Bool) : Control Txn Res :=
  if prevBamActive ∧ ¬ctx.ownershipGenRetired then ctx.beginOwnershipGeneration false else ctx

def clearEndpoint : Control Txn Res := { ctx with server := ⟨[], 0, false⟩, serverSni := [], enabled := false }

def ctrlUpdateCurrent : Int :=
  if ctx.server.fqdn = [] ∨ ctx.server.port = 0 then 0
  else ((if ctx.server.ssl then "https" else "http").toList ++ "://".toList ++ ctx.server.fqdn ++ ":".toList ++
    (toString ctx.server.port).toList).length

def finalize (prevBamActive needReset schedulerWorkStale : Bool) : Option String × Control Txn Res :=
  let ctx := if schedulerWorkStale then ctx.beginSchedulerGeneration else ctx
  let ctx := if needReset then ctx.clientReset prevBamActive else ctx
  if ctx.ctrlUpdateCurrent < 0 then (some "", ctx) else (none, ctx)

/-- The endpoint that is asked for. `parse` is fd_url_parse_endpoint, which may keep the port and the
scheme that it is given. -/
def target (parse : Cstr → Nat → Bool → Option Url) (openssl : Bool) (req : Request) : Except String Endpoint :=
  if ¬req.command.testBit 1 then .ok ctx.server
  else match parse req.url ctx.server.port ctx.server.ssl with
    | none => .error ("Invalid BAM URL `" ++ String.ofList req.url ++ "`")
    | some url =>
      if url.host = [] then .error ("BAM URL `" ++ String.ofList req.url ++ "` missing host")
      else if 256 ≤ url.host.length then .error "BAM host name too long"
      else if url.ssl ∧ ¬openssl then .error
        "This build does not include OpenSSL. Re-run ./deps.sh and rebuild before using https URLs."
      else .ok ⟨url.host, if url.portLen = 0 then (if url.ssl then 50056 else 50055) else url.port, url.ssl⟩

def newSni (req : Request) (host : Cstr) : Cstr :=
  if req.command.testBit 2 then (if req.sni = [] then host else ncpy req.sni)
  else if req.command.testBit 1 then host
  else ctx.serverSni

def applyCtrlRequest (parse : Cstr → Nat → Bool → Option Url) (openssl prevBamActive : Bool) (req : Request) :
    Option String × Control Txn Res :=
  if req.command = 0 then (some "No BAM update requested", ctx)
  else if req.blank then
    let needReset := ctx.server ≠ ⟨[], 0, false⟩ ∨ ctx.serverSni ≠ [] ∨ ctx.enabled
    ctx.clearEndpoint.finalize prevBamActive needReset true
  else match ctx.target parse openssl req with
    | .error text => (some text, ctx)
    | .ok server =>
      let sni := ctx.newSni req server.fqdn
      let enabled := if req.command.testBit 0 then req.enable else ctx.enabled
      let stale := server ≠ ctx.server ∨ sni ≠ ctx.serverSni ∨ (enabled ≠ ctx.enabled ∧ ¬enabled)
      let needReset := req.command.testBit 1 ∨ req.command.testBit 2 ∨ enabled ≠ ctx.enabled
      { ctx with server := server, serverSni := sni, enabled := enabled }.finalize prevBamActive needReset stale

section
variable {ctx} {prevBamActive needReset schedulerWorkStale : Bool}

lemma clientReset_configured : (ctx.clientReset prevBamActive).server = ctx.server ∧
    (ctx.clientReset prevBamActive).serverSni = ctx.serverSni ∧ (ctx.clientReset prevBamActive).enabled = ctx.enabled := by
  unfold clientReset
  split
  · exact ⟨rfl, rfl, rfl⟩
  · exact ⟨rfl, rfl, rfl⟩

lemma clientReset_retired (hr : ctx.ownershipGenRetired = true) : ctx.clientReset prevBamActive = ctx :=
  if_neg fun ha => ha.2 hr

lemma ctrlUpdateCurrent_nonneg : ¬ctx.ctrlUpdateCurrent < 0 := by
  unfold ctrlUpdateCurrent
  split
  · decide
  · exact Int.not_lt.mpr (Int.natCast_nonneg _)

lemma finalize_ok : (ctx.finalize prevBamActive needReset schedulerWorkStale).1 = none :=
  congrArg Prod.fst (if_neg ctrlUpdateCurrent_nonneg)

lemma finalize_configured : (ctx.finalize prevBamActive needReset schedulerWorkStale).2.server = ctx.server ∧
    (ctx.finalize prevBamActive needReset schedulerWorkStale).2.serverSni = ctx.serverSni ∧
    (ctx.finalize prevBamActive needReset schedulerWorkStale).2.enabled = ctx.enabled := by
  unfold finalize
  dsimp only
  rw [if_neg ctrlUpdateCurrent_nonneg]
  cases needReset <;> cases schedulerWorkStale <;> first | exact ⟨rfl, rfl, rfl⟩ | exact clientReset_configured

lemma finalize_stale : (ctx.finalize prevBamActive needReset true).2 = ctx.beginSchedulerGeneration := by
  unfold finalize
  dsimp only
  rw [if_neg ctrlUpdateCurrent_nonneg, if_pos rfl, clientReset_retired rfl, ite_self]

lemma nextGen_ne (gen : Nat) : nextGen gen ≠ gen := by
  unfold nextGen
  split <;> omega

structure Renewed (ctx ctx' : Control Txn Res) : Prop where
  pendingTxns : ctx'.pendingTxns = []
  bamResults : ctx'.bamResults = []
  schedulerGen : ctx'.schedulerGen ≠ ctx.schedulerGen
  ownershipGen : ctx'.ownershipGen ≠ ctx.ownershipGen

lemma renewed {ctx' : Control Txn Res} (hs : ctx'.schedulerGen = ctx.schedulerGen)
    (ho : ctx'.ownershipGen = ctx.ownershipGen) : Renewed ctx (ctx'.finalize prevBamActive needReset true).2 := by
  rw [finalize_stale]
  refine ⟨rfl, rfl, ?_, ?_⟩
  · exact hs ▸ nextGen_ne ctx'.schedulerGen
  · exact ho ▸ nextGen_ne ctx'.ownershipGen

end

/-- What a request that succeeds has done: the configuration is the one it asks for, and the work of the
old scheduler has ended if it moves, renames or clears the endpoint or turns the client off. -/
structure Applied (parse : Cstr → Nat → Bool → Option Url) (req : Request) (ctx ctx' : Control Txn Res) : Prop where
  asks : req.command ≠ 0
  cleared : req.blank → ctx'.server = ⟨[], 0, false⟩ ∧ ctx'.serverSni = [] ∧ ctx'.enabled = false ∧ Renewed ctx ctx'
  server : ¬req.blank → if req.command.testBit 1 then ∃ url, parse req.url ctx.server.port ctx.server.ssl = some url ∧
      ctx'.server = ⟨url.host, if url.portLen = 0 then (if url.ssl then 50056 else 50055) else url.port, url.ssl⟩
    else ctx'.server = ctx.server
  serverSni : ¬req.blank → ctx'.serverSni = if req.command.testBit 2 ∧ req.sni ≠ [] then ncpy req.sni
    else if req.command.testBit 2 ∨ req.command.testBit 1 then ctx'.server.fqdn else ctx.serverSni
  enabled : ¬req.blank → ctx'.enabled = if req.command.testBit 0 then req.enable else ctx.enabled
  disabled : req.command.testBit 0 → req.enable = false → ctx.enabled = true → Renewed ctx ctx'
  moved : ctx'.server ≠ ctx.server ∨ ctx'.serverSni ≠ ctx.serverSni → Renewed ctx ctx'

section
variable {ctx} {parse : Cstr → Nat → Bool → Option Url} {openssl prevBamActive : Bool} {req : Request} {server : Endpoint}

lemma target_asked (ht : ctx.target parse openssl req = .ok server) :
    if req.command.testBit 1 then ∃ url, parse req.url ctx.server.port ctx.server.ssl = some url ∧
      server = ⟨url.host, if url.portLen = 0 then (if url.ssl then 50056 else 50055) else url.port, url.ssl⟩
    else server = ctx.server := by
  unfold target at ht
  split_ifs at ht ⊢ with hu
  · cases hp : parse req.url ctx.server.port ctx.server.ssl with
    | none =>
      rw [hp] at ht
      cases ht
    | some url =>
      rw [hp] at ht
      dsimp only at ht
      split_ifs at ht
      all_goals cases ht
      all_goals exact ⟨url, rfl, by simp [*]⟩
  · cases ht
    rfl

lemma newSni_asked (host : Cstr) : ctx.newSni req host = if req.command.testBit 2 ∧ req.sni ≠ [] then ncpy req.sni
    else if req.command.testBit 2 ∨ req.command.testBit 1 then host else ctx.serverSni := by
  unfold newSni
  split_ifs <;> simp_all

lemma cleared_applied (hc : req.command ≠ 0) (hb : req.blank) (needReset : Bool) :
    Applied parse req ctx (ctx.clearEndpoint.finalize prevBamActive needReset true).2 := by
  have hr : Renewed ctx (ctx.clearEndpoint.finalize prevBamActive needReset true).2 := renewed rfl rfl
  obtain ⟨hs, hn, he⟩ := @finalize_configured _ _ ctx.clearEndpoint prevBamActive needReset true
  exact ⟨hc, fun _ => ⟨hs, hn, he, hr⟩, fun hn => absurd hb hn, fun hn => absurd hb hn, fun hn => absurd hb hn,
    fun _ _ _ => hr, fun _ => hr⟩

lemma configured_applied (hc : req.command ≠ 0) (hb : ¬req.blank) (ht : ctx.target parse openssl req = .ok server)
    {enabled : Bool} (enabledIs : (if req.command.testBit 0 then req.enable else ctx.enabled) = enabled) (needReset : Bool) :
    Applied parse req ctx ({ ctx with server, serverSni := ctx.newSni req server.fqdn, enabled }.finalize prevBamActive
      needReset (server ≠ ctx.server ∨ ctx.newSni req server.fqdn ≠ ctx.serverSni ∨
        enabled ≠ ctx.enabled ∧ ¬enabled)).2 := by
  generalize isStale : decide (server ≠ ctx.server ∨ ctx.newSni req server.fqdn ≠ ctx.serverSni ∨
    enabled ≠ ctx.enabled ∧ ¬enabled = true) = stale
  obtain ⟨hs, hn, he⟩ := @finalize_configured _ _ { ctx with server, serverSni := ctx.newSni req server.fqdn, enabled }
    prevBamActive needReset stale
  have renewedIf (why : server ≠ ctx.server ∨ ctx.newSni req server.fqdn ≠ ctx.serverSni ∨
      enabled ≠ ctx.enabled ∧ ¬enabled = true) :
      Renewed ctx ({ ctx with server, serverSni := ctx.newSni req server.fqdn, enabled }.finalize prevBamActive
        needReset stale).2 := by
    rw [← isStale, decide_eq_true why]
    exact renewed rfl rfl
  refine ⟨hc, fun blank => absurd blank hb, fun _ => ?_, fun _ => ?_, fun _ => ?_, ?_, ?_⟩
  · rw [hs]
    exact target_asked ht
  · rw [hn, hs]
    exact newSni_asked _
  · rw [he]
    exact enabledIs.symm
  · intro bit off on
    refine renewedIf (.inr (.inr ?_))
    rw [← enabledIs, if_pos bit, off, on]
    exact ⟨Bool.false_ne_true, Bool.false_ne_true⟩
  · rw [hs, hn]
    intro changed
    exact renewedIf (changed.imp_right .inl)

end

/-- A request that fails changes nothing, and one that succeeds does what it asks for. A blank URL
always succeeds. -/
theorem ctrl_request_all_or_nothing (parse : Cstr → Nat → Bool → Option Url) (openssl prevBamActive : Bool)
    (req : Request) : let (err, ctx') := ctx.applyCtrlRequest parse openssl prevBamActive req
    (∀ text, err = some text → ctx' = ctx) ∧ (err = none → Applied parse req ctx ctx') ∧
      (req.command ≠ 0 → req.blank → err = none) := by
  dsimp only
  unfold applyCtrlRequest
  split
  · rename_i none
    exact ⟨fun _ _ => rfl, nofun, fun asks => absurd none asks⟩
  rename_i asks
  split
  · rename_i blank
    rw [finalize_ok]
    exact ⟨nofun, fun _ => cleared_applied asks blank _, fun _ _ => rfl⟩
  rename_i named
  refine ⟨?_, ?_, fun _ blank => absurd blank named⟩
  · split
    · exact fun _ _ => rfl
    · rw [finalize_ok]
      exact nofun
  · split
    · exact nofun
    · rename_i server target
      exact fun _ => configured_applied asks named target rfl _

def busyClient : Control Nat Nat := ⟨⟨"a".toList, 1, false⟩, "a".toList, true, 3, false, 65535, [1, 2], [7]⟩

/-- A request for the host b: the old work is gone, and the scheduler generation skips zero. -/
theorem move_ends_work : ∃ ctx', busyClient.applyCtrlRequest (fun url _ _ => some ⟨url, 0, 0, false⟩) false true
      ⟨2, false, "b".toList, []⟩ = (none, ctx') ∧
    ctx'.server = ⟨"b".toList, 50055, false⟩ ∧ Renewed busyClient ctx' := by
  have done := busyClient.ctrl_request_all_or_nothing (fun url _ _ => some ⟨url, 0, 0, false⟩) false true
    ⟨2, false, "b".toList, []⟩
  have applied := done.2.1 (by decide)
  obtain ⟨_, ⟨⟩, server⟩ := applied.server (by decide)
  exact ⟨_, Prod.ext (by decide) rfl, server, applied.moved (.inl (by decide))⟩

end Control

end Firebam.Bam
