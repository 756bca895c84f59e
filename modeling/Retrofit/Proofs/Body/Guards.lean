import Retrofit.Proofs.Body.Order

/-!
# Guarded code

However a loaded body was spliced, a guard goes on covering the code that it covered: the loaded
instructions in its range and whatever has taken the place of one of them, and nothing else. Its
handler is found where the loaded handler was.
-/

namespace Retrofit.Body

/-- The guard `g'` of the laid out body covers the nodes whose sources were covered by `g`. -/
structure GuardFollows (b : Body) (sources : List Nat) (g g' : Guard) : Prop where
  covers : ∀ q o a : Nat, sources[q]? = some o → b.addresses[q]? = some a →
    (g'.start.toNat ≤ a ∧ a < g'.stop.toNat ↔ g.start.toNat ≤ o ∧ o < g.stop.toNat)
  handler : b.Lands g.handler.toNat g'.handler.toNat
  catchType_eq : g'.catchType = g.catchType

/-- The guard `g'` names the places where the ends and the handler of `g` have landed. -/
structure GuardPlaced (b : Body) (g g' : Guard) : Prop where
  start : b.Lands g.start.toNat g'.start.toNat
  stop : b.Lands g.stop.toNat g'.stop.toNat
  handler : b.Lands g.handler.toNat g'.handler.toNat
  catchType_eq : g'.catchType = g.catchType

theorem guardPlaced_of_moveGuard {b : Body} (hb : b.Anchored) (hlen : b.length ≤ 65535)
    {g g' : Guard} (h : moveGuard (OffsetMap.ofPairs b.offsetPairs).get? g = .ok g') :
    b.GuardPlaced g g' := by
  obtain ⟨start, hstart, h⟩ := bind_eq_ok.mp h
  obtain ⟨stop, hstop, h⟩ := bind_eq_ok.mp h
  obtain ⟨handler, hhandler, h⟩ := bind_eq_ok.mp h
  cases h
  exact ⟨lands_of_moveOffset16 hb hlen hstart, lands_of_moveOffset16 hb hlen hstop,
    lands_of_moveOffset16 hb hlen hhandler, rfl⟩

theorem guardFollows_of_moveGuard {b : Body} {sources : List Nat} (hb : b.Anchored)
    (horder : b.InOrder sources) (hlen : b.length ≤ 65535) {g g' : Guard}
    (h : moveGuard (OffsetMap.ofPairs b.offsetPairs).get? g = .ok g') :
    b.GuardFollows sources g g' := by
  obtain ⟨hstart, hstop, hhandler, hcatch⟩ := guardPlaced_of_moveGuard hb hlen h
  refine ⟨fun q o a hsource ha => ?_, hhandler, hcatch⟩
  have hstart := horder.le_iff hstart hsource ha
  have hstop := horder.le_iff hstop hsource ha
  omega

/-- Once a spliced body is laid out, each of its nodes has a source and an address in the code, and
every guard covers the nodes with the sources that it covered before. -/
theorem encode_guards {pool : Pool} {code c : CodeAttribute} {loaded b : Body} {sources : List Nat}
    (hload : Body.decode pool code = .ok loaded) (hsplices : SplicedFrom loaded b sources)
    (henc : b.encode = .ok c) :
    sources.length = b.nodes.length ∧ b.EmittedAs code.code.length c.code ∧
      List.Forall₂ (b.GuardFollows sources) code.guards c.guards := by
  have horder := hsplices.inOrder hload
  have hspliced := hsplices.spliced hload
  have hb := hspliced.anchored (anchored_of_decode hload)
  have hemits := hspliced.emits hload henc
  obtain ⟨hlen, _, guards, _, _, hguards, -, rfl⟩ := encode_eq_ok_iff.mp henc
  obtain ⟨js, tables, -, -, rfl⟩ := decode_eq_ok_iff.mp hload
  rw [show b.guards = code.guards from congrArg Body.guards hspliced.eq] at hguards
  refine ⟨horder.length_eq, hemits, ?_⟩
  exact (mapM_eq_ok.mp hguards).imp fun _ _ => guardFollows_of_moveGuard hb horder hlen

/-- A `Nop` that is guarded on its own, as part of the whole code, and not by an empty range behind
it. -/
def fenced : CodeAttribute :=
  ⟨1, 1, [0x01, 0x00, 0xb0, 0xbf], [⟨1, 2, 3, 0⟩, ⟨0, 4, 3, 7⟩, ⟨2, 2, 4, 0⟩], []⟩

def fencedBody : Body where
  maxStack := 1
  maxLocals := 1
  scratchBase := 1
  nodes := [⟨some 0, .pushNull⟩, ⟨some 1, .nop⟩, ⟨some 2, .areturn⟩, ⟨some 3, .athrow⟩]
  loadedLength := 4
  guards := [⟨1, 2, 3, 0⟩, ⟨0, 4, 3, 7⟩, ⟨2, 2, 4, 0⟩]
  tables := []

/-- The `Nop` replaced by a push and a pop, and then the pop by two pops and a push. -/
def fencedSpliced : Body :=
  (fencedBody.splice 1 [.pushNull, .pop]).splice 2 [.pop, .pop, .pushNull]

def fencedEncoded : CodeAttribute :=
  ⟨1, 1, [0x01, 0x01, 0x57, 0x57, 0x01, 0xb0, 0xbf], [⟨1, 5, 6, 0⟩, ⟨0, 7, 6, 7⟩, ⟨5, 5, 7, 0⟩], []⟩

theorem encode_guards_fenced :
    Body.decode ⟨1, #[]⟩ fenced = .ok fencedBody ∧
      SplicedFrom fencedBody fencedSpliced [0, 1, 1, 1, 1, 2, 3] ∧
      fencedSpliced.encode = .ok fencedEncoded ∧
      List.Forall₂ (fencedSpliced.GuardFollows [0, 1, 1, 1, 1, 2, 3]) fenced.guards
        fencedEncoded.guards := by
  have hload : Body.decode ⟨1, #[]⟩ fenced = .ok fencedBody := by cbv
  have honce : SplicedFrom fencedBody
      (fencedBody.splice 1 [.pushNull, .pop]) [0, 1, 1, 2, 3] :=
    .splice _ _ .loaded rfl
  have hsplices : SplicedFrom fencedBody fencedSpliced [0, 1, 1, 1, 1, 2, 3] :=
    .splice _ _ honce rfl
  have henc : fencedSpliced.encode = .ok fencedEncoded := by cbv
  exact ⟨hload, hsplices, henc, (encode_guards hload hsplices henc).2.2⟩

end Retrofit.Body
