import Birdai.Move.MoveTypes
import Birdai.Venue.CetusPool

/-!
# Venues

What an object can be typed as, and the dispatch that types it. The three
byte-level decoders are parameters: nothing here depends on what they read.
-/

namespace AnyVenues

open WideArith TickIndex MoveTypes CetusPool

inductive VenueKind where
  | cetusClmm
  | voloNativePool
  | naviStorage
  deriving DecidableEq

def VenueKind.label : VenueKind → String
  | .cetusClmm => "cetus-clmm"
  | .voloNativePool => "volo-native-pool"
  | .naviStorage => "navi-storage"

/-- By module and name only, so a pool under a new package is still recognised. -/
def venueKindOf (tag : StructTag) : Option VenueKind :=
  if tag.module = "pool" ∧ tag.name = "Pool" then some .cetusClmm
  else if tag.module = "native_pool" ∧ tag.name = "NativePool" then some .voloNativePool
  else if tag.module = "storage" ∧ tag.name = "Storage" then some .naviStorage
  else none

structure VoloNativePool where
  pending : U64
  collectableFee : U64
  vaults : U64
  validators : List (Address × U64)
  sortedValidators : List Address
  deriving DecidableEq

structure NaviStorage where
  version : U64
  paused : Bool
  reservesSize : U64
  reservesCount : Fin (2 ^ 8)
  users : List Address
  userInfoSize : U64
  deriving DecidableEq

inductive AnyVenue where
  | cetus (pool : CetusClmm)
  | volo (pool : VoloNativePool)
  | navi (storage : NaviStorage)
  deriving DecidableEq

namespace AnyVenue

def kind : AnyVenue → VenueKind
  | .cetus _ => .cetusClmm
  | .volo _ => .voloNativePool
  | .navi _ => .naviStorage

/-- The inner UID a Cetus pool keeps its tick nodes under. -/
def nodeUid? : AnyVenue → Option ObjectId
  | .cetus pool => some pool.ticks.nodeUid
  | _ => none

end AnyVenue

inductive DecodeError where
  | missingField (field : String)
  | unexpectedType (expected : String)
  | unexpectedEnd
  | outOfRange (target : String)
  | annotation (message : String)
  deriving DecidableEq

inductive VenueError where
  | unknownVenue (reason : String)
  | notAStruct (tag : String)
  | decode (error : DecodeError)
  deriving DecidableEq

abbrev Fingerprint := Fin (2 ^ 256)

/-- The hash of a layout, and each venue's own decoder. -/
structure Decoders where
  fingerprint : MoveTypeLayout → Fingerprint
  cetus : List (Fin 256) → MoveTypeLayout → Except VenueError CetusClmm
  volo : List (Fin 256) → MoveTypeLayout → Except VenueError VoloNativePool
  navi : List (Fin 256) → MoveTypeLayout → Except VenueError NaviStorage

def requiredFields : VenueKind → List String
  | .cetusClmm =>
    ["coin_a", "coin_b", "tick_spacing", "fee_rate", "liquidity", "current_sqrt_price",
      "current_tick_index", "fee_growth_global_a", "fee_growth_global_b", "tick_manager",
      "is_pause"]
  | .voloNativePool => ["pending", "collectable_fee", "validator_set"]
  | .naviStorage => ["reserves", "reserves_count", "user_info"]

def layoutHasShape (kind : VenueKind) (fields : List MoveFieldLayout) : Bool :=
  (requiredFields kind).all fun required => fields.any fun field => field.name = required

/-- The name is a hint; the layout's fields are the test. -/
def decodeVenue (decoders : Decoders) (bytes : List (Fin 256)) (tag : StructTag)
    (layout : MoveTypeLayout) : Except VenueError AnyVenue :=
  match venueKindOf tag with
  | none => .error (.unknownVenue (shortTag tag))
  | some kind =>
    match layout with
    | .struct _ fields =>
      if layoutHasShape kind fields then
        match kind with
        | .cetusClmm => (decoders.cetus bytes layout).map .cetus
        | .voloNativePool => (decoders.volo bytes layout).map .volo
        | .naviStorage => (decoders.navi bytes layout).map .navi
      else
        .error (.unknownVenue (shortTag tag ++ " is named like a " ++ kind.label ++
          " but its layout is a different struct"))
    | _ => .error (.notAStruct (shortTag tag))

end AnyVenues
