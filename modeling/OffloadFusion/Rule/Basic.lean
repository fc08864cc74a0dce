import OffloadFusion.Rule.AnchorPointwise
import OffloadFusion.Rule.Attention
import OffloadFusion.Rule.InputFusion
import OffloadFusion.Rule.SplitReduce
import OffloadFusion.Rule.Standalone

/-!
# Fusion rules

A `Rule` pairs a matcher with a change of the session, which gives `false` if it declines the match.
-/

namespace OffloadFusion

/-- The fusion rules. -/
inductive Rule where
  | fusedAttention
  | attention
  | anchorPointwise (conv dot : Mode)
  | standaloneConv (mode : Mode)
  | standaloneDot (mode : Mode)
  | splitReduce
  | inputFusion
deriving DecidableEq, Repr

namespace Rule

def name : Rule → String
  | fusedAttention => "fused_attention"
  | attention => "attention"
  | anchorPointwise .. => "anchor_pointwise"
  | standaloneConv _ => "standalone_convolution"
  | standaloneDot _ => "standalone_dot"
  | splitReduce => "split_reduce"
  | inputFusion => "input_fusion"

/-- Where the rule may apply. -/
def matcher : Rule → Matcher
  | fusedAttention => Attention.Fused.matcher
  | attention => Attention.Alone.matcher
  | anchorPointwise conv dot => AnchorPointwise.matcher conv dot
  | standaloneConv mode => Standalone.matcher (.conv mode)
  | standaloneDot mode => Standalone.matcher (.dot mode false)
  | splitReduce => SplitReduce.matcher
  | inputFusion => InputFusion.matcher

/-- Fuses at a match, or declines it. -/
def apply : Rule → Match → Fusing Bool
  | fusedAttention, m => Attention.Fused.apply m
  | attention, m => Attention.Alone.apply m
  | anchorPointwise .., m => AnchorPointwise.apply m
  | standaloneConv _, m => Standalone.apply m
  | standaloneDot _, m => Standalone.apply m
  | splitReduce, m => SplitReduce.apply m
  | inputFusion, m => InputFusion.apply m

end Rule

end OffloadFusion
