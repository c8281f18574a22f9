import Q21Formal.Ledger.Finality
import Q21Formal.Wallet.OneTime
import Q21Formal.Ledger.Eviction
import Q21Formal.Ledger.Template
import Q21Formal.Ledger.PolicySpend
import Q21Formal.Channel.JournalFile
import Q21Formal.Transport.Agreement
import Q21Formal.Ledger.Compact
import Q21Formal.Storage.BlockFile
import Q21Formal.Ledger.Target
