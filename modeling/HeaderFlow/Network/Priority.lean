import HeaderFlow.Network.Propagation

/-!
# Priority within tables

Of two rules of one table that share headers and a port of entry, the one with the smaller index
wins. Such a pair is recorded as an *influence*, which tells the losing rule what to leave to the
other.

A rule is *covered* by others if their union has all its headers. A new rule that rules of higher
priority cover never applies, and is reported. **All rules that share some port with it are united
for that**, whichever port it is.
-/

namespace HeaderFlow

/-- How rules cover another rule. -/
structure Coverage where
  /-- The rules together match every header. -/
  universal : Bool := false
  /-- The rules together match what the rule matches. -/
  covers : Bool := false
  /-- The rules that share headers with it. -/
  related : List NodeId := []
  deriving DecidableEq

namespace Network

/-- The union of what rules accept, and those of them that share headers with `p`. -/
def gather (p : Pattern) (inPorts : PortSet) (acc : Space) : List Node →
    Checked (Space × List NodeId)
  | [] => .ok (acc, [])
  | n :: ns => do
    match n.accepts with
    | some q =>
      if n.inPorts.intersects inPorts then
        let common ← p.intersect q
        let (acc, related) ← gather p inPorts (← acc.addPattern q) ns
        return (acc, if common.isSome then n.id :: related else related)
      else gather p inPorts acc ns
    | none => gather p inPorts acc ns

/-- How rules cover another rule. -/
def coverage (net : Network) (n : Node) (others : List Node) : Checked Coverage := do
  let some p := n.accepts | return {}
  let (union, related) ← gather p n.inPorts (.empty net.bytes) others
  if union.isEmpty then return {}
  let union ← union.simplify
  let universal ← union.isEqual (.all net.bytes)
  let covers ← (Space.ofPattern p).isSubset union
  return ⟨universal, covers, related⟩

/-- The headers that match `p` and a rule, if there are common ports. -/
def shared (p : Pattern) (ports : PortSet) (m : Node) : Checked (Option Pattern) :=
  if ports.isEmpty then .ok none
  else match m.accepts with
    | some q => p.intersect q
    | none => .ok none

/-- The influences between a rule and others of its table. -/
def influencesWith (n : Node) (index : UInt32) (p : Pattern) : List (UInt32 × Node) →
    Checked (List Influence)
  | [] => .ok []
  | (i, m) :: rest => do
    let ports := m.inPorts.inter n.inPorts
    let common ← shared p ports m
    let more ← influencesWith n index p rest
    return (common.map fun c ↦
      if i < index then ⟨m.key, n.key, c, ports⟩ else ⟨n.key, m.key, c, ports⟩).toList ++ more

/-! ### Audits -/

/-- What an audit finds about one rule, between those before and those after it. -/
def auditRule (net : Network) (table : TableId) (before : List Node) (n : Node)
    (after : List Node) : Checked (List Anomaly) := do
  let checks := net.settings.anomalies
  let above ← if checks.shadow || checks.reach then net.coverage n before else pure {}
  let first :=
    if above.universal && checks.reach then [⟨.unreachable, table, n.id, above.related⟩]
    else if above.covers && !above.universal && checks.shadow then
      [⟨.shadowed, table, n.id, above.related⟩]
    else []
  let below ← if checks.generalization then net.coverage n after else pure {}
  let second := if below.covers then [⟨.generalization, table, n.id, below.related⟩] else []
  return first ++ second

/-- What an audit finds about the rules of a table, given those before. -/
def auditRules (net : Network) (table : TableId) (before : List Node) : List Node →
    Checked (List Anomaly)
  | [] => .ok []
  | n :: after => do
    let here ← net.auditRule table before n after
    let more ← net.auditRules table (before ++ [n]) after
    return here ++ more

/-- What an audit finds in some tables. -/
def auditTables (net : Network) : List TableId → Checked (List Anomaly)
  | [] => .ok []
  | t :: ts => do
    let rules ← net.rulesOf t
    let here ← net.auditRules t [] (rules.map Prod.snd)
    let more ← net.auditTables ts
    return here ++ more

end Network

namespace Engine

/-- Stores an influence and lists it with both rules. -/
def addInfluence (i : Influence) : Engine Unit := do
  let k := (← network).influences.nextHandle
  update fun net ↦ { net with influences := net.influences.insert i }
  alterNode i.influencer (Node.mapRule fun r ↦ { r with effectOn := r.effectOn ++ [k] })
  alterNode i.influenced (Node.mapRule fun r ↦ { r with influencedBy := r.influencedBy ++ [k] })

/-- Reports a new rule that never applies. -/
def reportCoverage (id : NodeId) (c : Coverage) : Engine Unit := do
  if c.universal then report (.unreachable id (← event))
  else if c.covers then report (.shadow id c.related (← event))

/-- How the rules of higher priority cover a rule, if that is looked for. -/
def coverageAbove (n : Node) (index : UInt32) (others : List (UInt32 × Node)) (net : Network) :
    Checked Coverage :=
  if net.settings.checkShadow then
    let higher := others.filter fun (i, m) ↦ i < index && !(m.inPorts.inter n.inPorts).isEmpty
    net.coverage n (higher.map Prod.snd)
  else .ok {}

/-- Relates a new rule to the others of its table. -/
def relate (key : NodeKey) : Engine Unit := do
  let n ← node key
  let some r := n.rule? | return
  let some p := n.accepts | return
  let rules ← ask fun net ↦ net.rulesOf r.table
  let others := rules.filter fun (_, m) ↦ m.key ≠ key
  let created ← check (Network.influencesWith n r.index p others)
  let found ← ask (coverageAbove n r.index others)
  created.forM addInfluence
  reportCoverage n.id found

/-- Takes what a new rule wins from the flows of the rules that lose it. -/
def takeWon (key : NodeKey) : Engine Unit := do
  let some r := (← node key).rule? | return
  r.effectOn.forM fun k ↦ do
    let some i := (← network).influences.find? k | return
    refreshFlows i.influenced i.ports (some i.common)

/-- Removes an influence and answers it, if it was there. -/
def removeInfluence (k : Handle) : Engine (Option Influence) := do
  let i := (← network).influences.find? k
  update fun net ↦ { net with influences := net.influences.erase k }
  return i

/-- Removes an influence in which a rule loses. -/
def dropLost (k : Handle) : Engine Unit := do
  let some i ← removeInfluence k | return
  let n ← node i.influencer
  updateNode n.key (Node.mapRule fun r ↦ { r with effectOn := r.effectOn.filter (· ≠ k) })

/-- Removes the influences in which a rule wins, and answers them. -/
def dropWon : List Handle → Engine (List Influence)
  | [] => return []
  | k :: ks => do
    match ← removeInfluence k with
    | none => dropWon ks
    | some i =>
      let n ← node i.influenced
      updateNode n.key
        (Node.mapRule fun r ↦ { r with influencedBy := r.influencedBy.filter (· ≠ k) })
      return i :: (← dropWon ks)

/-- Removes all influences of a rule; **only then** are flows refreshed that get headers back. -/
def release (key : NodeKey) : Engine Unit := do
  let some r := (← node key).rule? | return
  updateNode key (Node.mapRule fun r ↦ { r with influencedBy := [], effectOn := [] })
  r.influencedBy.forM dropLost
  let won ← dropWon r.effectOn
  won.forM fun i ↦ refreshFlows i.influenced i.ports none

end Engine

end HeaderFlow
