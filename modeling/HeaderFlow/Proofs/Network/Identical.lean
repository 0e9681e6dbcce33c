import HeaderFlow.Proofs.Network.Tracks

/-!
# Twins that are the same

If the comparison is exact and everything stands for itself only, **twins differ in nothing** but
their settings, their budgets and the latest change.

Being twins is a relation of records by their parts, so this goes part by part: rules, probes,
roles, nodes, pipes, influences and flows are equal if they are related. Arenas are equal if they
find the same and have the same free slots, ages and counts (`ext_find?`), which is why twins are in
step as far as handles are concerned.

That two runs differ in nothing but their limits is a case of this: see `Network.after_relaxed`.
-/

namespace HeaderFlow

open Arena (find?_eq_some_iff)

variable {α δ : Type} {n m : Nat} {T : Comparison n m} {ν : Naming} {net net' : Network}

namespace Arena

/-- **An arena is what it finds**, together with its free slots, the ages of all slots and the
count. -/
theorem ext_find? {a b : Arena α} (hages : b.ages = a.ages) (hfree : b.free = a.free)
    (hsize : b.size = a.size) (hfind : ∀ h, b.find? h = a.find? h) : b = a := by
  obtain ⟨slots, free, size⟩ := a
  obtain ⟨slots', free', size'⟩ := b
  obtain rfl : free' = free := hfree
  obtain rfl : size' = size := hsize
  have hage : ∀ i : Nat, slots'[i]?.map Slot.age = slots[i]?.map Slot.age := fun i ↦ by
    have hi := congrArg (fun ages : Array Nat ↦ ages[i]?) hages
    simpa [ages] using hi
  refine congrArg (Arena.mk · free' size') (Array.ext_getElem? fun i ↦ ?_)
  have hi := hage i
  cases hs : slots[i]? with
  | none =>
    rw [hs] at hi
    exact Option.map_eq_none_iff.1 hi
  | some s =>
    rw [hs] at hi
    obtain ⟨s', hs', hages⟩ := Option.map_eq_some_iff.1 hi
    have hvalue := hfind ⟨i, s.age⟩
    simp only [find?, hs, hs', hages, if_true] at hvalue
    rw [hs']
    obtain ⟨age, value⟩ := s
    obtain ⟨age', value'⟩ := s'
    obtain rfl : age' = age := hages
    obtain rfl : value' = value := hvalue
    rfl

/-- Arenas in step with the same values under the same names are the same. -/
theorem Pairs.eq {exact : Prop} {ν : Lexicon Handle δ} {S : α → α → Prop} {U : δ → α → Prop}
    {a b : Arena α} (hP : Pairs exact ν S U a b) (he : exact) (hS : ∀ v w, S v w → w = v) :
    b = a := by
  obtain ⟨hages, hfree, hsize, hsame⟩ := hP.same he
  refine ext_find? hages hfree hsize fun h ↦ ?_
  by_cases hh : ν.Kept h h
  · exact optionRel_eq (hP.kept h h hh) hS
  · have hnone : ν h = none := by
      cases hx : ν h with
      | none => rfl
      | some x => exact absurd (hx.trans (congrArg some (hsame h x hx))) hh
    have ha : a.find? h = none := by
      cases hv : a.find? h with
      | none => rfl
      | some v =>
        obtain ⟨x, hx⟩ := hP.named h v hv
        cases hnone.symm.trans hx
    have hb : b.find? h = none := by
      cases hw : b.find? h with
      | none => rfl
      | some w =>
        obtain ⟨g, hg⟩ := hP.named' h w hw
        exact absurd (hP.eq_of_kept he hg ▸ hg) hh
    rw [ha, hb]

theorem Alike.eq {S : α → α → Prop} {a b : Arena α} (hA : Alike S a b) (hS : ∀ v w, S v w → w = v) :
    b = a :=
  ext_find? hA.ages hA.free hA.size fun h ↦ optionRel_eq (hA.found h) hS

end Arena

/-- What goes with a name is the same name. -/
structure Naming.Literal (ν : Naming) : Prop where
  node : ∀ k k', ν.node.Kept k k' → k' = k
  pipe : ∀ h h', ν.pipe.Kept h h' → h' = h
  flow : ∀ h h', ν.flow.Kept h h' → h' = h
  pipeLost : ∀ side h, ¬ ν.pipe.Lost side h
  flowLost : ∀ h, ¬ ν.flow.Lost () h

namespace Comparison

/-- Everything stands for itself only. -/
structure Literal (T : Comparison n m) : Prop where
  exact : T.exact
  pattern : ∀ p p', T.pattern p p' → p' = p
  mask : ∀ p p', T.mask p p' → p' = p
  space : ∀ s s', T.space s s' → s' = s
  asked : ∀ s s', T.asked s s' → s' = s

section Literal

variable (hT : T.Literal) (hν : ν.Literal)

include hT

theorem Rules.eq {r r' : Rule} (hr : T.Rules r r') : r' = r := by
  obtain ⟨table, index, overwrite, influencedBy, effectOn⟩ := r
  obtain ⟨table', index', overwrite', influencedBy', effectOn'⟩ := r'
  obtain ⟨rfl, rfl, hw, rfl, rfl⟩ := hr
  obtain rfl : overwrite' = overwrite := optionRel_eq hw fun w w' h ↦ by
    obtain ⟨mask, value⟩ := w
    obtain ⟨mask', value'⟩ := w'
    exact congrArg₂ Overwrite.mk (hT.mask _ _ h.1) (hT.pattern _ _ h.2)
  rfl

include hν

theorem Probes.eq {p p' : Probe} (hp : T.Probes ν p p') : p' = p := by
  have hresults : p'.results = p.results := hp.results.eq
    (fun e e' he ↦ Prod.ext (hν.flow _ _ he.1) he.2) fun e ↦ hν.flowLost e.1
  obtain ⟨mode, state, filter, test, results, deciding⟩ := p
  obtain ⟨mode', state', filter', test', results', deciding'⟩ := p'
  obtain ⟨rfl, rfl, hfilter, htest, -, -, hdeciding⟩ := hp
  obtain rfl : filter' = filter := hfilter.eq hT.asked
  obtain rfl : test' = test := htest.eq hT.asked
  obtain rfl : deciding' = deciding := hdeciding hT.exact
  obtain rfl : results' = results := hresults
  rfl

theorem Roles.eq {r r' : Role} (hr : T.Roles ν r r') : r' = r := by
  cases hr with
  | rule hr => rw [Rules.eq hT hr]
  | source => rfl
  | probe hp => rw [Probes.eq hT hν hp]

/-- Nodes that are related are equal, their lists included. -/
theorem Nodes.eq {k k' : Node} (hk : T.Nodes ν k k') : k' = k := by
  have hid := hk.id_eq (T.rename_of_exact hT.exact)
  obtain ⟨hkey, -, hrole, haccepts, hsends, hin, hout, hinput, houtput, hnext, hprev, hflows⟩ := hk
  obtain ⟨key, id, role, accepts, sends, inPorts, outPorts, inputLayer, outputLayer, next, prev,
    flows⟩ := k
  obtain ⟨key', id', role', accepts', sends', inPorts', outPorts', inputLayer', outputLayer',
    next', prev', flows'⟩ := k'
  obtain rfl : key' = key := hν.node _ _ hkey
  obtain rfl : id' = id := hid
  obtain rfl : role' = role := Roles.eq hT hν hrole
  obtain rfl : accepts' = accepts := optionRel_eq haccepts hT.pattern
  obtain rfl : sends' = sends := hT.pattern _ _ hsends
  obtain rfl : inPorts' = inPorts := hin
  obtain rfl : outPorts' = outPorts := hout
  obtain rfl : inputLayer' = inputLayer := hinput
  obtain rfl : outputLayer' = outputLayer := houtput
  obtain rfl : next' = next := hnext.eq hν.pipe fun _ hno ↦ hno
  obtain rfl : prev' = prev := hprev.eq hν.pipe (hν.pipeLost .rear)
  obtain rfl : flows' = flows := hflows.eq hν.flow hν.flowLost
  rfl

theorem Pipes.eq {p p' : Pipe} (hp : T.Pipes ν p p') : p' = p := by
  obtain ⟨node, port, pattern, reverse⟩ := p
  obtain ⟨node', port', pattern', reverse'⟩ := p'
  obtain ⟨hnode, hport, hpattern, hreverse⟩ := hp
  obtain rfl : node' = node := hν.node _ _ hnode
  obtain rfl : port' = port := hport
  obtain rfl : pattern' = pattern := hT.pattern _ _ hpattern
  obtain rfl : reverse' = reverse := hν.pipe _ _ hreverse
  rfl

theorem Influences.eq {i i' : Influence} (hi : T.Influences ν i i') : i' = i := by
  obtain ⟨influencer, influenced, common, ports⟩ := i
  obtain ⟨influencer', influenced', common', ports'⟩ := i'
  obtain ⟨hinfluencer, hinfluenced, hcommon, hports⟩ := hi
  obtain rfl : influencer' = influencer := hν.node _ _ hinfluencer
  obtain rfl : influenced' = influenced := hν.node _ _ hinfluenced
  obtain rfl : common' = common := hT.pattern _ _ hcommon
  obtain rfl : ports' = ports := hports
  rfl

/-- Flows that are related are equal, their spaces included. -/
theorem Flows.eq {f f' : Flow} (hf : T.Flows ν f f') : f' = f := by
  obtain ⟨hnode, hsource, hinput, hprocessed, hport, hpipe, hparent, hchildren, hlooped⟩ := hf
  obtain ⟨node, source, input, processed, port, pipe, parent, children, looped⟩ := f
  obtain ⟨node', source', input', processed', port', pipe', parent', children', looped'⟩ := f'
  obtain rfl : node' = node := hν.node _ _ hnode
  obtain rfl : source' = source := hν.flow _ _ hsource
  obtain rfl : input' = input := hT.space _ _ hinput
  obtain rfl : processed' = processed := optionRel_eq hprocessed hT.space
  obtain rfl : port' = port := hport
  obtain rfl : pipe' = pipe := optionRel_eq hpipe hν.pipe
  obtain rfl : parent' = parent := optionRel_eq hparent hν.flow
  obtain rfl : children' = children := hchildren.eq hν.flow fun _ hno ↦ hno
  obtain rfl : looped' = looped := hlooped
  rfl

end Literal

/-- In exact twins nothing is left out, so a literal naming names everything by itself. -/
theorem Twins.literal (hT : T.Twins ν net net') (he : T.exact) : ν.Literal where
  node k k' hk := by
    cases (hT.sameKeys he).2 k _ hk
    rfl
  pipe _ _ hh := hT.pipes.eq_of_kept he hh
  flow _ _ hh := hT.flows.eq_of_kept he hh
  pipeLost _ _ hh := hT.pipes.inexact hh he
  flowLost _ hh := hT.flows.inexact hh he

/-- **Twins differ in nothing but their settings, their budgets and the latest change.** -/
theorem Twins.eq (hT : T.Twins ν net net') (hl : T.Literal) : net' = { net with
    bytes := m
    settings := net'.settings
    lastEvent := net'.lastEvent
    budget := net'.budget } := by
  have hν := hT.literal hl.exact
  have hnodes : net'.nodes = net.nodes := hT.nodes.eq (fun _ _ ↦ Nodes.eq hl hν) fun k hk ↦ by
    cases (hT.sameKeys hl.exact).2 _ _ hk.key
  have hpipes : net'.pipes = net.pipes := hT.pipes.eq hl.exact fun _ _ ↦ Pipes.eq hl hν
  have hinfluences : net'.influences = net.influences := hT.influences.eq fun _ _ ↦
    Influences.eq hl hν
  have hflows : net'.flows = net.flows := hT.flows.eq hl.exact fun _ _ ↦ Flows.eq hl hν
  have hnextId : net'.nextId = net.nextId := hT.nextId.trans (T.rename_of_exact hl.exact _)
  have hregistry : net'.registry = net.registry := hT.registry hl.exact
  obtain ⟨bytes, settings, tables, nodes, directory, topology, pipes, influences, flows,
    nextKey, nextId, lastEvent, consistent, budget⟩ := net'
  obtain rfl : bytes = m := hT.bytes'
  obtain rfl : tables = net.tables := congrArg Registry.tables hregistry
  obtain rfl : directory = net.directory := congrArg Registry.directory hregistry
  obtain rfl : topology = net.topology := hT.topology
  obtain rfl : nextKey = net.nextKey := (hT.sameKeys hl.exact).1
  obtain rfl : consistent = net.consistent := hT.consistent
  obtain rfl : nodes = net.nodes := hnodes
  obtain rfl : pipes = net.pipes := hpipes
  obtain rfl : influences = net.influences := hinfluences
  obtain rfl : flows = net.flows := hflows
  obtain rfl : nextId = net.nextId := hnextId
  rfl

/-- **Twins at rest that are compared literally are equal**, but for settings, budget and the latest
change. -/
theorem AtRest.eq (hT : T.AtRest ν net net') (hl : T.Literal) : net' = { net with
    bytes := m
    settings := net'.settings
    lastEvent := net'.lastEvent
    budget := net'.budget } :=
  congrArg (fun found : Network ↦ { found with budget := net'.budget }) (hT.toTwins.eq hl)

end Comparison

end HeaderFlow
