import BitcoinCrawl.Text.Numeral

set_option autoImplicit false

/-! # Service flags

The 64 bits by which a node says what it offers. The text of a set of flags names the known ones from
the lowest bit up and adds all others as one hexadecimal number. -/

namespace BitcoinCrawl

/-- A set of service bits. -/
structure Services where
  bits : UInt64
  deriving DecidableEq, Inhabited

namespace Services

/-- No service at all. -/
def none : Services := ⟨0⟩

/-- Whether every flag of `wanted` is set. -/
def has (services wanted : Services) : Bool :=
  services.bits &&& wanted.bits == wanted.bits

/-- The flags that have a name, lowest bit first. -/
def named : List (UInt64 × String) :=
  [(1, "NETWORK"), (2, "GETUTXO"), (4, "BLOOM"), (8, "WITNESS"), (64, "COMPACT_FILTERS"),
   (1024, "NETWORK_LIMITED"), (2048, "P2P_V2")]

/-- The bits that have no name. -/
def unnamed (services : Services) : UInt64 :=
  named.foldl (fun bits flag => bits &&& ~~~flag.1) services.bits

/-- The names of the set flags, the nameless ones last as one number. -/
def labels (services : Services) : List String :=
  let known := named.filterMap fun flag =>
    if services.bits &&& flag.1 == flag.1 then some flag.2 else Option.none
  let rest := services.unnamed
  if rest = 0 then known
  else known ++ ["0x" ++ String.ofList (Numeral.hex rest.toNat)]

/-- Text of a set of flags, such as `ServiceFlags(NETWORK|WITNESS)`. -/
def text (services : Services) : String :=
  if services.bits = 0 then "ServiceFlags(NONE)"
  else "ServiceFlags(" ++ "|".intercalate services.labels ++ ")"

instance : ToString Services := ⟨text⟩

end Services

end BitcoinCrawl
