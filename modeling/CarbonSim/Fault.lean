import Mathlib.Tactic.Common

/-!
# Failed assertions

A handler of the simulator that fails an `assert`, a `LOG_ASSERT_ERROR` or reaches a
`LOG_PRINT_ERROR` stops the simulation. `Fault` has one constructor for each of them, and the model
of a handler returns it as an error.
-/

namespace CarbonSim

/-- The assertions of the memory subsystem. -/
inductive Fault
  /-- `BitVector`: bit beyond the capacity. -/
  | bitRange
  /-- `DirectoryEntry*::addSharer`: the sharer is already present. -/
  | sharerPresent
  /-- `DirectoryEntry*::removeSharer`: the sharer is not recorded. -/
  | sharerMissing
  /-- `DirectoryEntryLimited::getSharersList`: the count differs from the list. -/
  | trackedCount
  /-- `DirectoryEntry*::removeSharer`: a reply is expected, or the entry is not in broadcast mode. -/
  | replyExpected
  /-- `DirectoryEntry{Ackwise,LimitedBroadcast}::addSharer`: the overflow check. -/
  | overflowCheck
  /-- `DirectoryEntryAckwise::removeSharer`: no untracked sharer. -/
  | untrackedCount
  /-- `DirectoryEntryLimitless::addSharer`: a migrated sharer out of range, or left behind. -/
  | migration
  /-- `getSharersList`: more bits set than counted. -/
  | listSize
  /-- `getOneSharer`: no sharer to choose from. -/
  | noSharer
  /-- `DirectoryEntry::setOwner`: the owner is not a sharer. -/
  | ownerNotSharer
  /-- `MemoryManager::sendMsg`: no such tile. -/
  | noSuchTile
  /-- `DirectoryCache::invalidateDirectoryEntry`: the address is not in the replaced list. -/
  | notReplaced
  /-- `DirectoryCache::replaceDirectoryEntry`: the replaced address is not in its set. -/
  | noEntryToReplace
  /-- `DirectoryCache::getReplacementCandidates`: the address has an entry. -/
  | entryExists
  /-- `processDirectoryEntryAllocationReq`: every candidate has a pending request. -/
  | noReplacementCandidate
  /-- A request queue has not the length that is asserted. -/
  | queueCount
  /-- The entry of a line is missing. -/
  | noEntry
  /-- The directory state is not the one asserted. -/
  | directoryState
  /-- A request of a type the directory does not process at this point. -/
  | unrecognizedRequest
  /-- Data is already at hand while other tiles hold the line. -/
  | cachedData
  /-- `addSharer` refused a sharer that must be added. -/
  | addResult
  /-- The sender of a reply is not recorded as a sharer. -/
  | senderNotSharer
  /-- `DramCntlr::putDataToDram`: the line was never read. -/
  | noDramData
  /-- A message without the data, or a request with data. -/
  | messageData
  /-- A message of a type the component does not handle. -/
  | unrecognizedMsg
  /-- `Cache::accessCacheLine`, `Cache::setCacheLineInfo`: the line is not in the cache. -/
  | lineNotCached
  /-- `CacheSet::read_line`, `CacheSet::write_line`: bytes beyond the line. -/
  | lineRange
  /-- `CacheSet::insert`: the replacement way is not a way of the set. -/
  | replacementWay
  /-- `PrL2CacheLineInfo::setCachedLoc`: the line has a location. -/
  | setCachedLoc
  /-- `PrL2CacheLineInfo::clearCachedLoc`: the line has another location. -/
  | clearCachedLoc
  /-- The cache state is not the one asserted. -/
  | cacheState
  /-- `handleMsgFromL1Cache`: a request is outstanding already. -/
  | outstandingMsg
  /-- `insertCacheLineInHierarchy`: a reply for another address than the outstanding one. -/
  | outstandingAddress
  /-- `handleMsgFromDramDirectory`: the reply is earlier than the request. -/
  | outstandingTime
  /-- `handleMsgFromNetwork`: a message of an L1 cache from another tile. -/
  | senderTile
  /-- `processMemOpFromTile`: the third access. -/
  | accessNum
  deriving DecidableEq, Repr

end CarbonSim
