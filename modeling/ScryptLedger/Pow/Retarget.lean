import ScryptLedger.Pow.Target

/-!
# Difficulty

The target of a block follows from the headers before it. In rounds of several
blocks, or block by block from the digishield height on, the target is scaled
by the time the round took over the time it should have taken, within limits.
Networks for tests may allow the easiest target after a long pause, or never
change the target at all.
-/

namespace ScryptLedger

/-- What difficulty looks at in a header. -/
structure HeaderInfo where
  height : Nat
  time : Int
  bits : UInt32
deriving DecidableEq, Repr

inductive RetargetError where
  | noParent
  | windowBelowGenesis (height : Int)
  | missingHeader (height : Nat)
deriving DecidableEq, Repr

def RetargetError.message : RetargetError → String
  | noParent => "no parent header"
  | windowBelowGenesis height => s!"retarget window starts below genesis at {height}"
  | missingHeader height => s!"no header at height {height}"

structure RetargetRules where
  allowMinDifficulty : Bool
  digishield : Bool
  /-- The seconds a round should take, and the least and most it counts as. -/
  target : Nat
  least : Nat
  most : Nat
deriving DecidableEq, Repr

namespace Retarget

/-- The rules after the block at a height. Digishield bounds a round between three quarters and
one and a half of its target. Before it the upper bound is four times the target, and the lower
one tightens with the height. -/
def rulesAt (params : ChainParams) (height : Nat) : RetargetRules :=
  let digishield := params.isDigishield height
  let target := params.targetTimespan height
  let (least, most) :=
    if digishield then (target - target / 4, target + target / 2)
    else if 10000 < height then (target / 4, target * 4)
    else if 5000 < height then (target / 8, target * 4)
    else (target / 16, target * 4)
  ⟨params.allowsMinDifficulty height, digishield, target, least, most⟩

def headerAt (chain : List HeaderInfo) (height : Nat) : Except RetargetError HeaderInfo :=
  let lowest := (chain.head?.map HeaderInfo.height).getD 0
  if height < lowest then throw (.missingHeader height)
  else
    match chain[height - lowest]? with
    | some header => return header
    | none => throw (.missingHeader height)

/-- The last target before the latest run of easiest targets, looking no further back than the
start of the round. The headers are given latest first. -/
def lastHardBits (limitBits : UInt32) (interval : Nat) : (latest : HeaderInfo) →
    (earlier : List HeaderInfo) → UInt32
  | latest, [] => latest.bits
  | latest, before :: earlier =>
    if (0 < interval && latest.height % interval == 0) || latest.bits != limitBits then latest.bits
    else lastHardBits limitBits interval before earlier

/-- The time a round counts as. Digishield lets an eighth of the deviation through, rounded
toward zero. -/
def countedTime (rules : RetargetRules) (actual : Int) : Int :=
  let damped := if rules.digishield then rules.target + (actual - rules.target).tdiv 8 else actual
  max (rules.least : Int) (min damped rules.most)

def scale (params : ChainParams) (rules : RetargetRules) (target : Nat) (time : Nat) : Nat :=
  min (min (target * time) Target.max / rules.target) params.powLimit

/-- The compact target of the block after `chain`, which holds headers in order of height. -/
def next (chain : List HeaderInfo) (time : Int) (params : ChainParams) :
    Except RetargetError UInt32 :=
  match chain.reverse with
  | [] => throw .noParent
  | parent :: earlier =>
    if params.noRetargeting then return parent.bits
    else
      let limitBits := Target.toCompact params.powLimit
      let rules := rulesAt params parent.height
      if rules.allowMinDifficulty && parent.time + params.targetSpacing * 2 < time then
        return limitBits
      else
        let round := params.targetTimespan parent.height / params.targetSpacing
        let interval := if rules.digishield then 1 else round
        let height := parent.height + 1
        if height % interval != 0 then
          if rules.allowMinDifficulty then return lastHardBits limitBits round parent earlier
          else return parent.bits
        else
          let back := if height = interval then interval - 1 else interval
          if parent.height < back then throw (.windowBelowGenesis (parent.height - back))
          else do
            let first ← headerAt chain (parent.height - back)
            let counted := countedTime rules (parent.time - first.time)
            let old := (Target.ofCompact parent.bits).target
            return Target.toCompact (scale params rules old counted.toNat)

/-- Whether a header at a height may move from one compact target to another, whatever the
times: the new target must lie between the ones that the shortest and the longest round give. -/
def isPermitted (params : ChainParams) (height : Nat) (old new : UInt32) : Bool :=
  let parent := height - 1
  let rules := rulesAt params parent
  if rules.allowMinDifficulty || params.noRetargeting || old == new then true
  else if !params.isDigishield parent && height % params.retargetInterval parent != 0 then false
  else
    match Target.derive? new params.powLimit with
    | none => false
    | some observed =>
      let bound (time : Nat) : Nat :=
        (Target.ofCompact (Target.toCompact
          (scale params rules (Target.ofCompact old).target time))).target
      bound rules.least ≤ observed && observed ≤ bound rules.most

end Retarget

end ScryptLedger
