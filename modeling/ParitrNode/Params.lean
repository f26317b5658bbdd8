import ParitrNode.Library.Checked

/-! The Protocol 9 constants. A 256-bit word is a natural number. -/

namespace ParitrNode

def PROTOCOL_VERSION : UInt16 := 9
def HEADER_VERSION : UInt16 := 3
def CHAIN_ID : String := "paritr-mainnet"

def COIN : UInt64 := 100000000
def INITIAL_SUBSIDY : UInt64 := 10 * COIN
def HALVING_INTERVAL : UInt64 := 1600000
def MIN_SUBSIDY : UInt64 := COIN / 2
def FINDER_SHARE_PERCENT : UInt64 := 5
def REWARD_WINDOW : Nat := 1440
def REWARD_MATURITY : UInt64 := 100

def TARGET_BLOCK_TIME : UInt64 := 64
def ASERT_HALF_LIFE : Int := 2 * 60 * 60
def MEDIAN_TIME_SPAN : Nat := 11
def MAX_FUTURE_BLOCK_TIME : UInt64 := 300

def WORKSHARE_TARGET_MULTIPLIER : Nat := 32
def MAX_WORKSHARES_PER_BLOCK : Nat := 512
def MAX_TEMPLATES_PER_BLOCK : Nat := 512
def MAX_WORKSHARE_WITNESS_BYTES : Nat := 4 * 1024 * 1024

def MAX_BLOCK_BYTES : Nat := 8 * 1024 * 1024
def MAX_BLOCK_TRANSACTIONS : Nat := 4096
def MAX_TRANSACTION_BYTES : Nat := 1024
def MAX_TEMPLATE_BYTES : Nat := 4 * 1024 * 1024
def MAX_MONEY : UInt64 := UInt64.ofNat (2 ^ 62 - 1)

def RANDOMX_EPOCH_BLOCKS : UInt64 := 2048
def RANDOMX_SEED_LAG : UInt64 := 64
def RANDOMX_BOOTSTRAP_SEED : String := "Paritr-Protocol-9-RandomX-Bootstrap-v1"

def GENESIS_TIMESTAMP : UInt64 := 1788984000
def GENESIS_MESSAGE : String := "Paritr Mainnet Protocol 9 - launch-anchored ASERT - 4.0.1-rc.3"

def MAX_U256 : Nat := 2 ^ 256 - 1

def MAX_U512 : Nat := 2 ^ 512 - 1

def powLimit : Nat := 2 ^ 248 - 1

def initialTarget : Nat := 2 ^ 242 - 1

def blockSubsidy (height : UInt64) : UInt64 :=
  if height = 0 then 0
  else
    let halvings := (height - 1) / HALVING_INTERVAL
    if halvings ≥ 64 then MIN_SUBSIDY else max (INITIAL_SUBSIDY >>> halvings) MIN_SUBSIDY

def randomxSeedReferenceHeight (height : UInt64) : UInt64 :=
  if height < RANDOMX_EPOCH_BLOCKS then 0
  else
    let epochStart := (height / RANDOMX_EPOCH_BLOCKS) * RANDOMX_EPOCH_BLOCKS
    Checked.saturatingSub epochStart RANDOMX_SEED_LAG

end ParitrNode
